import LayerAnimation.Proofs.Deferral
import LayerAnimation.Proofs.TimeLimit

/-!
# What a simulation samples

A simulation takes one frame after the other, and ends with the first one that finds every step
issued and no job waiting.  Then nothing runs any more, so what the last frame shows is what the
layer holds, with resting values in the gaps; and every attribute that a step has named holds a
value.

- `Script.afterFrame` is the stage after a frame, and `Script.frames_eq_sample` says that the frame
  loop goes through these stages up to the first idle one.
- `Stage.Promises` says that an attribute has a value or will come to one: the layer holds one, a
  track leads to one, or a motion that was put off names the attribute.
- `Stage.Serves` is the invariant: exactly certain attributes are promised.  Starting jobs keeps it
  (`Stage.Serves.advanceTo`), and a motion adds the attributes that it names
  (`Stage.Serves.motion`).
- `Script.simulate_samples` puts both together.
-/

namespace LayerAnimation

variable {α κ σ : Type}

/-! ## §1 Goals and names of animations -/

/-- Only a track of a caller's own making can be without a goal. -/
theorem Intent.isSome_goal?_iff [Scalar α] {i : Intent α} :
    i.goal?.isSome ↔ ∀ t, i = .custom t → t.goal.isSome := by
  cases i <;> simp [goal?]

theorem Intent.goal_track [Scalar α] (opacity : Option (Value α)) (i : Intent α) :
    (i.track opacity).goal = i.goal? := by
  cases i <;> rfl

theorem Animation.isSome_lastTrack?_iff {a : Animation α} {k : Attribute} :
    (a.lastTrack? k).isSome ↔ a.names k := by
  simp [lastTrack?, names]

namespace Layer

variable [Scalar α]

theorem names_compile (l : Layer α) (intents : List (Intent α)) (duration : α) (easing : Easing α)
    (k : Attribute) : (Animation.group (.assemble (l.compile intents) duration easing)).names k
      ↔ ∃ i ∈ intents, i.key = k := by
  simp [Animation.names, Animation.tracks, Group.assemble, compile, Intent.key_track]

theorem goals_compile {l : Layer α} {intents : List (Intent α)}
    (goals : ∀ i ∈ intents, i.goal?.isSome) (duration : α) (easing : Easing α) :
    ∀ t ∈ (Animation.group (.assemble (l.compile intents) duration easing)).tracks,
      t.goal.isSome := by
  simpa [Animation.tracks, Group.assemble, compile, Intent.goal_track] using goals

/-- Filling in starts leaves the names and the goals of tracks alone. -/
theorem map_fillStarts {β : Type} (l : Layer α) (a : Animation α) {f : Track α → β}
    (same : ∀ t start, f { t with start := start } = f t) :
    (l.fillStarts a).tracks.map f = a.tracks.map f := by
  cases a <;> simp [fillStarts, Animation.mapTracks, Animation.tracks, same]

theorem names_attach (l : Layer α) (id : AnimationId) (now : α) (a : Animation α) (k : Attribute) :
    (l.attach id now a).2.names k ↔ a.names k := by
  have hkeys := map_fillStarts (l.sync now) a (f := Track.key) fun _ _ => rfl
  rw [← mem_keys_iff, ← mem_keys_iff]
  exact iff_of_eq (congrArg (k ∈ ·) hkeys)

theorem goals_attach {l : Layer α} {a : Animation α} (goals : ∀ t ∈ a.tracks, t.goal.isSome)
    (id : AnimationId) (now : α) : ∀ t ∈ (l.attach id now a).2.tracks, t.goal.isSome := by
  have hgoals := map_fillStarts (l.sync now) a (f := Track.goal) fun _ _ => rfl
  intro t ht
  have hmem : t.goal ∈ a.tracks.map Track.goal := by
    rw [← hgoals]
    exact List.mem_map_of_mem ht
  obtain ⟨t', ht', hgoal⟩ := List.mem_map.mp hmem
  rw [← hgoal]
  exact goals t' ht'

/-- After an attachment the attributes that it names are destined for something too. -/
theorem isSome_destined?_attach {l : Layer α} {a : Animation α}
    (goals : ∀ t ∈ a.tracks, t.goal.isSome) (id : AnimationId) (now : α) (k : Attribute) :
    ((l.attach id now a).1.destined? k).isSome ↔ a.names k ∨ (l.destined? k).isSome := by
  rw [destined?_attach, ← names_attach l id now a k, ← Animation.isSome_lastTrack?_iff]
  cases hlast : (l.attach id now a).2.lastTrack? k with
  | none => simp
  | some t =>
    have hgoal := goals_attach goals id now t (Animation.mem_of_lastTrack? hlast).1
    simp [hgoal]

end Layer

/-! ## §2 Promised attributes -/

namespace Stage

/-- An attribute of a layer has a value or will come to one. -/
def Promises (s : Stage α κ σ) (id : LayerId) (k : Attribute) : Prop :=
  (∃ cell, s.cell? id = some cell ∧ (cell.layer.destined? k).isSome) ∨
  ∃ u ∈ s.timers, ∃ d, u.job = .deferred d ∧ ∃ i ∈ d.intents, i.key = k

/-- Exactly certain attributes of a layer are promised.  The layer is not in use, so nothing that is
to come of them is refused; there is no motion for another layer, and all tracks have goals. -/
structure Serves [Scalar α] (s : Stage α κ σ) (id : LayerId) (promised : Attribute → Prop) :
    Prop where
  free : s.hold? id = some .free
  aimed : ∀ cell, s.cell? id = some cell → cell.layer.Aimed
  goals : ∀ u ∈ s.timers, ∀ d, u.job = .deferred d →
    d.layer = id ∧ ∀ i ∈ d.intents, i.goal?.isSome
  promises : ∀ k, s.Promises id k ↔ promised k

variable [Scalar α] {s s' r : Stage α κ σ} {id : LayerId} {promised : Attribute → Prop}

theorem Serves.congr {promised' : Attribute → Prop} (h : s.Serves id promised)
    (same : ∀ k, promised k ↔ promised' k) : s.Serves id promised' where
  free := h.free
  aimed := h.aimed
  goals := h.goals
  promises := fun k => (h.promises k).trans (same k)

theorem Serves.exists_cell (h : s.Serves id promised) :
    ∃ cell, s.cell? id = some cell ∧ cell.hold = .free :=
  Option.map_eq_some_iff.mp h.free

/-- What is promised depends on the layer and the motions that were put off, and not on the rest of
the stage. -/
theorem Serves.mono (h : s.Serves id promised) (hold : s'.hold? id = s.hold? id)
    (layer : (s'.cell? id).map (·.layer.destined?) = (s.cell? id).map (·.layer.destined?))
    (aimed : ∀ cell, s'.cell? id = some cell → cell.layer.Aimed)
    (deferred : ∀ u, (u ∈ s'.timers ∧ ∃ d, u.job = .deferred d) ↔
      (u ∈ s.timers ∧ ∃ d, u.job = .deferred d)) : s'.Serves id promised where
  free := hold.trans h.free
  aimed := aimed
  goals := fun u hu d hd => h.goals u ((deferred u).mp ⟨hu, d, hd⟩).1 d hd
  promises := by
    intro k
    rw [← h.promises k]
    -- Whether a layer is bound for a value of the attribute can be read off what it is bound for as
    -- a whole.
    apply or_congr
    · have hcell : ∀ x : Stage α κ σ, (∃ cell, x.cell? id = some cell ∧
          (cell.layer.destined? k).isSome) ↔
          ∃ f, (x.cell? id).map (·.layer.destined?) = some f ∧ (f k).isSome := by
        simp
      rw [hcell, hcell, layer]
    · constructor
      · rintro ⟨u, hu, d, hd, hrest⟩
        exact ⟨u, ((deferred u).mp ⟨hu, d, hd⟩).1, d, hd, hrest⟩
      · rintro ⟨u, hu, d, hd, hrest⟩
        exact ⟨u, ((deferred u).mpr ⟨hu, d, hd⟩).1, d, hd, hrest⟩

theorem Serves.moveClock (h : s.Serves id promised) (t : α) : (s.moveClock t).Serves id promised :=
  h.mono rfl rfl h.aimed fun _ => Iff.rfl

theorem Serves.sync (h : s.Serves id promised) : s.sync.Serves id promised := by
  have hcell : ∀ cell, s.sync.cell? id = some cell → ∃ cell', s.cell? id = some cell' ∧
      cell.layer.values = cell'.layer.values ∧ cell.layer.playing = cell'.layer.playing :=
    keepsLayers_sync s id
  refine h.mono (congrFun (hold?_sync s) id) ?_ ?_ fun _ => Iff.rfl
  · rw [cell?_sync]
    split
    · rw [Option.map_map]
      refine Option.map_congr fun cell _ => ?_
      funext k
      simp [Layer.destined?]
    · rfl
  · intro cell hcell'
    obtain ⟨cell', hcell, -, hplaying⟩ := hcell cell hcell'
    have haimed := h.aimed cell' hcell
    unfold Layer.Aimed at haimed ⊢
    rwa [hplaying]

/-- Registering a completion promises nothing. -/
theorem Serves.enqueueCompletion (h : s.Serves id promised) (after : α) (c : Completion α) :
    (s.enqueueCompletion after c).Serves id promised := by
  have hcell : (s.enqueueCompletion after c).cell? id = s.cell? id := cell?_follow s c.layer id
  refine h.mono ?_ (by rw [hcell]) (by rw [hcell]; exact h.aimed) fun u => ?_
  · rw [hold?, hold?, hcell]
  · rw [show (s.enqueueCompletion after c).timers = Timer.insert _ (s.follow c.layer).timers from rfl,
      Timer.mem_insert, timers_follow]
    aesop

theorem Serves.requeue (h : s.Serves id promised) (cs : List (Completion α)) :
    (s.requeue cs).Serves id promised := by
  induction cs generalizing s with
  | nil => exact h
  | cons c cs ih =>
    refine ih (h.mono rfl rfl h.aimed fun u => ?_)
    rw [show (s.enqueue 0.0 (.completion c)).timers = Timer.insert _ s.timers from rfl,
      Timer.mem_insert]
    aesop

/-- A commit keeps every promise. -/
theorem Serves.fire (h : s.Serves id promised) (c : Completion α) (ending : Ending) :
    (s.fire c ending).1.Serves id promised := by
  have htimers := timers_fire s c ending
  have hhold := congrFun (hold?_fire s c ending) id
  unfold Stage.fire at htimers hhold ⊢
  split
  · exact h
  · next cell hcell =>
    split
    · next hwriter =>
      simp only [hcell, hwriter, ↓reduceIte] at htimers hhold
      refine h.mono hhold ?_ ?_ (by simp [htimers])
      · rw [cell?_setLayer]
        split
        · next hid =>
          subst hid
          rw [hcell, Option.map_some, Option.map_some, Option.map_some]
          congr 1
          funext k
          exact Layer.destined?_commit (h.aimed cell hcell) c.id c.animation k
        · rfl
      · intro cell' hcell'
        rw [cell?_setLayer] at hcell'
        split at hcell'
        · next hid =>
          subst hid
          obtain ⟨before, hbefore, rfl⟩ := Option.map_eq_some_iff.mp hcell'
          exact (h.aimed cell hcell).commit c.id c.animation
        · exact h.aimed cell' hcell'
    · exact h

/-- A motion that is made at once promises the attributes that it names. -/
theorem Serves.perform (h : s.Serves id promised) {intents : List (Intent α)}
    (goals : ∀ i ∈ intents, i.goal?.isSome) (duration : α) (easing : Easing α) :
    (s.perform id intents duration easing).1.Serves id
      fun k => (∃ i ∈ intents, i.key = k) ∨ promised k := by
  obtain ⟨cell, hcell, hfree⟩ := h.exists_cell
  have hwritable : s.writable? id = some cell.layer :=
    writable?_eq_some_iff.mpr ⟨cell, hcell, hfree, rfl⟩
  have hperform : (s.perform id intents duration easing).1 =
      (s.drawId.setLayer id (cell.layer.attach s.nextId s.now
        (.group (.assemble (cell.layer.compile intents) duration easing))).1).enqueueCompletion
          duration ⟨id, s.nextId, (cell.layer.attach s.nextId s.now
            (.group (.assemble (cell.layer.compile intents) duration easing))).2⟩ := by
    rw [perform_of_writable? hwritable, animate_of_writable? hwritable]
    rfl
  have hgoals := cell.layer.goals_compile goals duration easing
  have hnames := cell.layer.names_compile intents duration easing
  rw [hperform]
  generalize Animation.group (.assemble (cell.layer.compile intents) duration easing) = a
    at hgoals hnames
  refine Serves.enqueueCompletion (s := s.drawId.setLayer id (cell.layer.attach s.nextId s.now a).1)
    ⟨?_, ?_, h.goals, fun k => ?_⟩ duration _
  · rw [hold?_setLayer]
    exact h.free
  · intro cell' hcell'
    rw [cell?_setLayer, if_pos rfl, cell?_drawId, hcell] at hcell'
    cases hcell'
    exact (h.aimed cell hcell).attach s.nextId s.now (Layer.goals_attach hgoals _ _)
  · -- On the layer the named attributes are new; what was put off is as before.
    rw [← h.promises k, Promises, Promises, cell?_setLayer, if_pos rfl, cell?_drawId, hcell]
    simp only [Option.map_some, Option.some.injEq, exists_eq_left',
      Layer.isSome_destined?_attach hgoals, hnames, or_assoc]
    rfl

/-- A motion that is put off promises them too. -/
theorem Serves.schedule (h : s.Serves id promised) {intents : List (Intent α)}
    (goals : ∀ i ∈ intents, i.goal?.isSome) (o : Options α) :
    (s.schedule id intents o).Serves id fun k => (∃ i ∈ intents, i.key = k) ∨ promised k where
  free := h.free
  aimed := h.aimed
  goals := by
    intro u hu d hd
    rcases Timer.mem_insert.mp hu with rfl | hu
    · cases hd
      exact ⟨rfl, goals⟩
    · exact h.goals u hu d hd
  promises := by
    intro k
    rw [← h.promises k, Promises, Promises, or_left_comm]
    apply or_congr_right
    constructor
    · rintro ⟨u, hu, d, hd, hnames⟩
      rcases Timer.mem_insert.mp hu with rfl | hu
      · cases hd
        exact .inl hnames
      · exact .inr ⟨u, hu, d, hd, hnames⟩
    · rintro (hnames | ⟨u, hu, hrest⟩)
      · exact ⟨_, Timer.mem_insert.mpr (.inl rfl), _, rfl, hnames⟩
      · exact ⟨u, Timer.mem_insert.mpr (.inr hu), hrest⟩

theorem Serves.motion (h : s.Serves id promised) {intents : List (Intent α)}
    (goals : ∀ i ∈ intents, i.goal?.isSome) (o : Options α) :
    (s.motion id intents o).1.Serves id fun k => (∃ i ∈ intents, i.key = k) ∨ promised k := by
  unfold Stage.motion
  split
  · exact h.schedule goals o.repaired
  · exact h.perform goals _ _

end Stage

namespace PlainStage

variable [Scalar α] {s r : PlainStage α} {id : LayerId} {promised : Attribute → Prop} {t : α}
  {u : Timer α Empty}

/-! ## §3 Promises are kept while the clock moves -/

theorem serves_startTimer (h : s.Serves id promised) (popped : s.popDue t = some (u, r)) :
    (startTimer u r).1.Serves id promised := by
  obtain ⟨us, hus, -, rfl⟩ := Stage.popDue_eq_some_iff.mp popped
  have hall := h.goals
  rw [hus] at hall
  -- Without the job that starts, what is promised may be less.
  have hrest : Stage.Serves { s with timers := us } id
      (Stage.Promises { s with timers := us } id) :=
    ⟨h.free, h.aimed, fun v hv => hall v (List.mem_cons_of_mem u hv), fun _ => Iff.rfl⟩
  have hsynced := (hrest.moveClock u.due).sync
  have hsplit : ∀ k, promised k ↔ (∃ d, u.job = .deferred d ∧ ∃ i ∈ d.intents, i.key = k) ∨
      Stage.Promises { s with timers := us } id k := by
    intro k
    rw [← h.promises k, Stage.Promises, Stage.Promises, hus, or_left_comm]
    simp only [List.exists_mem_cons_iff]
    rfl
  unfold startTimer Stage.start
  cases hjob : u.job with
  | completion c =>
    have hfire := hsynced.fire c .finished
    have hsame : ∀ k, Stage.Promises { s with timers := us } id k ↔ promised k := by
      intro k
      simp [hsplit k, hjob]
    dsimp only
    split <;> next e =>
      rw [e] at hfire
      exact hfire.congr hsame
  | deferred d =>
    obtain ⟨rfl, hgoals⟩ := hall u List.mem_cons_self d hjob
    refine (hsynced.perform hgoals d.duration d.easing).congr fun k => ?_
    simp [hsplit k, hjob]
  | routine r => exact r.elim

theorem serves_runDue (h : s.Serves id promised) (t : α) : (s.runDue t).1.Serves id promised := by
  induction s using runDue_induction t with
  | idle s hidle => rwa [runDue_of_idle hidle]
  | next s u r popped ih =>
    rw [runDue_of_popDue popped]
    exact ih (serves_startTimer h popped)

/-- Moving the clock keeps every promise. -/
theorem serves_advanceTo (h : s.Serves id promised) (t : α) :
    (s.advanceTo t).1.Serves id promised :=
  (((serves_runDue h t).moveClock t).requeue _).sync

end PlainStage

namespace Script

open PlainStage

variable [Scalar α] {s : Script α} {fps : α}

/-! ## §4 Frames -/

/-- Issue the steps whose time has come and move the clock.  Beside the stage stand the steps that
are still to be issued. -/
def takeFrame (t : α) (state : PlainStage α × List (Step α)) : PlainStage α × List (Step α) :=
  (((issueDue t state.2 state.1).1.advanceTo t).1, (issueDue t state.2 state.1).2)

/-- The stage of a simulation after a frame, and the steps that are still to be issued then. -/
def afterFrame (s : Script α) (fps : α) : Nat → PlainStage α × List (Step α)
  | 0 => takeFrame (frameTime fps 0) (s.opening, s.steps)
  | n + 1 => takeFrame (frameTime fps (n + 1)) (afterFrame s fps n)

/-- After a frame every step is issued and no job waits. -/
def IdleAfter (s : Script α) (fps : α) (n : Nat) : Prop :=
  (s.afterFrame fps n).2 = [] ∧ (s.afterFrame fps n).1.pending = 0

/-- What the layer shows after a frame. -/
def sample (s : Script α) (fps : α) (n : Nat) : Sample α :=
  ⟨frameTime fps n, shown (s.afterFrame fps n).1⟩

/-- Frames that come to their end were sampled up to the first idle one. -/
theorem frames_eq_sample {fuel frame : Nat} {steps : List (Step α)} {stage : PlainStage α}
    {taken : List (Sample α)}
    (next : takeFrame (frameTime fps frame) (stage, steps) = s.afterFrame fps frame)
    {sim : Simulation α} (h : frames fps fuel frame steps stage taken = .ok sim) :
    ∃ n, s.IdleAfter fps (frame + n) ∧ (∀ m < n, ¬ s.IdleAfter fps (frame + m)) ∧
      sim.samples = taken.reverse ++ (List.range' frame (n + 1)).map (s.sample fps) ∧
      sim.final = held (s.afterFrame fps (frame + n)).1 := by
  induction fuel generalizing frame steps stage taken with
  | zero => cases h
  | succ fuel ih =>
    obtain ⟨hstage, hsteps⟩ := Prod.ext_iff.mp next
    have hidle : ((issueDue (frameTime fps frame) steps stage).2.isEmpty
        && ((issueDue (frameTime fps frame) steps stage).1.advanceTo (frameTime fps frame)).1.pending
          == 0) = true ↔ s.IdleAfter fps frame := by
      rw [IdleAfter, ← hstage, ← hsteps, Bool.and_eq_true, List.isEmpty_iff, beq_iff_eq]
      rfl
    have hsample : (⟨frameTime fps frame, shown ((issueDue (frameTime fps frame) steps
        stage).1.advanceTo (frameTime fps frame)).1⟩ : Sample α) = s.sample fps frame := by
      rw [sample, ← hstage]
      rfl
    unfold frames at h
    dsimp only at h
    split at h
    · cases h
    · split at h
      · next hend =>
        cases h
        refine ⟨0, hidle.mp hend, fun m hm => absurd hm (Nat.not_lt_zero m), ?_, ?_⟩
        · simp [hsample]
        · rw [Nat.add_zero, ← hstage]
          rfl
      · next hend =>
        have hlater : takeFrame (frameTime fps (frame + 1))
            (((issueDue (frameTime fps frame) steps stage).1.advanceTo (frameTime fps frame)).1,
              (issueDue (frameTime fps frame) steps stage).2) = s.afterFrame fps (frame + 1) := by
          rw [afterFrame, ← next]
          rfl
        obtain ⟨n, hlast, hbefore, hsamples, hfinal⟩ := ih hlater h
        refine ⟨n + 1, ?_, fun m hm => ?_, ?_, ?_⟩
        · rwa [Nat.add_comm n 1, ← Nat.add_assoc]
        · cases m with
          | zero => exact mt hidle.mpr hend
          | succ m =>
            rw [Nat.add_comm m 1, ← Nat.add_assoc]
            exact hbefore m (by omega)
        · rw [hsamples, hsample, List.reverse_cons, List.append_assoc, List.range'_succ]
          rfl
        · rwa [Nat.add_comm n 1, ← Nat.add_assoc]

/-! ## §5 At the end -/

theorem linked_takeFrame {stage : PlainStage α} (h : Stage.Linked stage 0) (t : α)
    (steps : List (Step α)) : Stage.Linked (takeFrame t (stage, steps)).1 0 := by
  rw [takeFrame, issueDue_eq]
  exact (linked_foldl_issue h _).transitions (transitions_perform (.advanceTo t) _ 0)

theorem linked_afterFrame (s : Script α) (fps : α) (n : Nat) :
    Stage.Linked (s.afterFrame fps n).1 0 := by
  induction n with
  | zero => exact linked_takeFrame s.linked_opening _ _
  | succ n ih => exact linked_takeFrame ih _ _

/-- An attribute has an initial value, or some of the steps name it. -/
def NamedBy (s : Script α) (steps : List (Step α)) (k : Attribute) : Prop :=
  (∃ step ∈ steps, ∃ i ∈ step.intents, i.key = k) ∨ (s.initial.get? k).isSome

theorem serves_opening (s : Script α) : s.opening.Serves stageLayer (s.NamedBy []) := by
  have hstage : (Stage.ofLayers [.ofValues s.initial]).Serves stageLayer (s.NamedBy []) := by
    refine ⟨rfl, fun cell hcell => ?_, nofun, fun k => ?_⟩
    · cases hcell
      intro k p hp
      rw [Layer.ofValues, AttributeMap.get?_empty] at hp
      cases hp
    · have hcell : (Stage.ofLayers [.ofValues s.initial]).cell? stageLayer
          = some ⟨.ofValues s.initial, .free, true⟩ := rfl
      have hidle : (Stage.ofLayers [.ofValues s.initial]).timers = [] := rfl
      have hdestined : (Layer.ofValues s.initial).destined? k = s.initial.get? k := by
        simp [Layer.destined?, Layer.ofValues]
      rw [Stage.Promises, hcell, hidle, NamedBy]
      simp [hdestined]
  have hfollow : ((Stage.ofLayers [.ofValues s.initial]).follow stageLayer).Serves stageLayer
      (s.NamedBy []) := hstage.mono rfl rfl hstage.aimed fun _ => Iff.rfl
  exact hfollow.sync

/-- Steps that are issued promise the attributes that they name. -/
theorem serves_foldl_issue {stage : PlainStage α} {before steps : List (Step α)}
    (goals : ∀ step ∈ steps, ∀ i ∈ step.intents, i.goal?.isSome)
    (h : stage.Serves stageLayer (s.NamedBy before)) :
    (steps.foldl issue stage).Serves stageLayer (s.NamedBy (before ++ steps)) := by
  induction steps generalizing stage before with
  | nil => simpa using h
  | cons step steps ih =>
    obtain ⟨hstep, hsteps⟩ := List.forall_mem_cons.mp goals
    have hissue : (issue stage step).Serves stageLayer (s.NamedBy (before ++ [step])) := by
      refine ((serves_advanceTo h step.time).motion hstep step.options).congr fun k => ?_
      simp only [NamedBy, List.mem_append, List.mem_singleton, or_and_right, exists_or,
        exists_eq_left]
      exact or_left_comm.trans or_assoc.symm
    have hrest := ih hsteps hissue
    rwa [List.append_assoc] at hrest

/-- Up to a frame a first part of the steps is issued, and what they name is promised. -/
theorem serves_afterFrame (goals : ∀ step ∈ s.steps, ∀ i ∈ step.intents, i.goal?.isSome)
    (fps : α) (n : Nat) : ∃ issued, s.steps = issued ++ (s.afterFrame fps n).2 ∧
      (s.afterFrame fps n).1.Serves stageLayer (s.NamedBy issued) := by
  have hframe : ∀ t (state : PlainStage α × List (Step α)) before, s.steps = before ++ state.2 →
      state.1.Serves stageLayer (s.NamedBy before) →
      ∃ issued, s.steps = issued ++ (takeFrame t state).2 ∧
        (takeFrame t state).1.Serves stageLayer (s.NamedBy issued) := by
    intro t state before hsplit hserves
    refine ⟨before ++ state.2.takeWhile (·.time ≤ t), ?_, ?_⟩
    · rw [takeFrame, issueDue_eq, List.append_assoc, List.takeWhile_append_dropWhile, hsplit]
    · rw [takeFrame, issueDue_eq]
      refine serves_advanceTo (serves_foldl_issue (fun step hstep => goals step ?_) hserves) t
      rw [hsplit]
      exact List.mem_append_right _ (List.takeWhile_subset _ hstep)
  induction n with
  | zero => exact hframe _ (s.opening, s.steps) [] rfl s.serves_opening
  | succ n ih =>
    obtain ⟨before, hsplit, hserves⟩ := ih
    exact hframe _ _ before hsplit hserves

variable {n : Nat}

/-- After an idle frame nothing runs. -/
theorem IdleAfter.playing? (idle : s.IdleAfter fps n) (k : Attribute) :
    (s.afterFrame fps n).1.playing? stageLayer k = none :=
  playing?_of_timers_eq_nil (s.linked_afterFrame fps n) (List.eq_nil_of_length_eq_zero idle.2) _ k

/-- After an idle frame the layer shows the values that it holds, and resting values elsewhere. -/
theorem IdleAfter.shown_eq (idle : s.IdleAfter fps n) {cell : Cell α}
    (found : (s.afterFrame fps n).1.cell? stageLayer = some cell) (k : Attribute) :
    (shown (s.afterFrame fps n).1).get? k = ((held (s.afterFrame fps n).1).get? k).or k.rest? := by
  have hplaying := idle.playing? k
  rw [Stage.playing?, found, Option.bind_some] at hplaying
  simp [shown, held, found, Layer.snapshot, Layer.presented?, hplaying]

/-- After an idle frame the layer holds a value exactly for the attributes that were set at first or
are named by a step. -/
theorem IdleAfter.isSome_held_iff (idle : s.IdleAfter fps n)
    (goals : ∀ step ∈ s.steps, ∀ i ∈ step.intents, i.goal?.isSome) (k : Attribute) :
    ((held (s.afterFrame fps n).1).get? k).isSome ↔ s.NamedBy s.steps k := by
  obtain ⟨issued, hsplit, hserves⟩ := serves_afterFrame goals fps n
  obtain ⟨cell, hcell, -⟩ := hserves.exists_cell
  have htimers := List.eq_nil_of_length_eq_zero idle.2
  have hplaying := idle.playing? k
  rw [Stage.playing?, hcell, Option.bind_some] at hplaying
  -- All steps are issued, and nothing is put off any more.
  rw [idle.1, List.append_nil] at hsplit
  rw [hsplit, ← hserves.promises k, Stage.Promises, htimers, hcell]
  simp [held, hcell, Layer.destined?, hplaying]

/-- The layer is there after every frame. -/
theorem exists_cell_afterFrame (s : Script α) (fps : α) (n : Nat) :
    ∃ cell, (s.afterFrame fps n).1.cell? stageLayer = some cell := by
  have hissue : ∀ (steps : List (Step α)) (stage : PlainStage α),
      (steps.foldl issue stage).hold? = stage.hold? := by
    intro steps
    induction steps with
    | nil => exact fun _ => rfl
    | cons step steps ih => exact fun stage => (ih _).trans (hold?_issue stage step)
  have hframe : ∀ t (state : PlainStage α × List (Step α)),
      (takeFrame t state).1.hold? = state.1.hold? := by
    intro t state
    rw [takeFrame, issueDue_eq]
    exact (hold?_advanceTo _ t).trans (hissue _ _)
  have hopening : s.opening.hold? stageLayer = some .free := s.serves_opening.free
  have hfree : (s.afterFrame fps n).1.hold? stageLayer = some .free := by
    induction n with
    | zero => rw [afterFrame, hframe, hopening]
    | succ n ih => rw [afterFrame, hframe, ih]
  obtain ⟨cell, hcell, -⟩ := Option.map_eq_some_iff.mp hfree
  exact ⟨cell, hcell⟩

/-- A simulation that comes to its end is sampled on the grid of its frames, up to the first frame
after which every step is issued and no job waits.  What it shows there is what the layer is left
with, and resting values elsewhere.  If every track of a caller's own making has a goal, the layer
is left with a value for exactly the attributes that had one at first or are named by a step. -/
theorem simulate_samples {s : Script Float} {fps : Float} {sim : Simulation Float}
    (h : s.simulate fps = .ok sim) :
    sim.samples ≠ [] ∧
    (∀ i (hi : i < sim.samples.length), sim.samples[i].t = (i : Float) / fps ∧
      sim.samples[i].values = shown (s.afterFrame fps i).1) ∧
    (∀ x, sim.samples.getLast? = some x →
      ∀ k, x.values.get? k = (sim.final.get? k).or k.rest?) ∧
    ((∀ step ∈ s.steps, ∀ t, .custom t ∈ step.intents → t.goal.isSome) →
      ∀ k, k ∈ sim.final.keys ↔
        k ∈ s.initial.keys ∨ ∃ step ∈ s.steps, ∃ i ∈ step.intents, i.key = k) ∧
    ∀ n < sim.samples.length, s.IdleAfter fps n ↔ n + 1 = sim.samples.length := by
  obtain ⟨-, -, hframes⟩ := of_simulate h
  have hfirst : takeFrame (frameTime fps 0) (s.opening, s.steps) = s.afterFrame fps 0 := rfl
  obtain ⟨last, hidle, hbusy, hsamples, hfinal⟩ := frames_eq_sample hfirst hframes
  rw [List.reverse_nil, List.nil_append] at hsamples
  rw [Nat.zero_add] at hidle hfinal
  have hlength : sim.samples.length = last + 1 := by simp [hsamples]
  refine ⟨?_, fun i hi => ?_, fun x hx k => ?_, fun goals k => ?_, fun n hn => ?_⟩
  · exact List.ne_nil_of_length_eq_add_one hlength
  · simp [hsamples, sample, frameTime]
  · obtain ⟨cell, hcell⟩ := s.exists_cell_afterFrame fps last
    have hlast : s.sample fps last = x := by
      simpa [hsamples, List.getLast?_eq_getElem?] using hx
    rw [hfinal, ← hidle.shown_eq hcell k, ← hlast]
    rfl
  · have hgoals : ∀ step ∈ s.steps, ∀ i ∈ step.intents, i.goal?.isSome := by
      intro step hstep i hi
      refine Intent.isSome_goal?_iff.mpr fun t ht => goals step hstep t ?_
      rwa [← ht]
    rw [hfinal, AttributeMap.mem_keys, hidle.isSome_held_iff hgoals k, NamedBy,
      AttributeMap.mem_keys, or_comm]
  · rw [hlength] at hn ⊢
    constructor
    · intro hn'
      by_contra hne
      exact hbusy n (by omega) (by rwa [Nat.zero_add])
    · intro heq
      obtain rfl : n = last := by omega
      exact hidle

/-- The two fades are sampled at the frames up to the one at which the second one is over. -/
theorem simulate_samples_fadeTwice :
    ∃ sim, fadeTwice.simulate 20.0 = .ok sim ∧ sim.samples ≠ [] ∧
      (∀ k, k ∈ sim.final.keys ↔ k = .opacity) := by
  have hend : (fadeTwice.simulate 20.0).isOk = true := by decide +kernel
  cases h : fadeTwice.simulate 20.0 with
  | error problem =>
    rw [h] at hend
    cases hend
  | ok sim =>
    obtain ⟨hsamples, -, -, hkeys, -⟩ := simulate_samples h
    refine ⟨sim, rfl, hsamples, fun k => ?_⟩
    rw [hkeys]
    · simp [fadeTwice, Intent.key, AttributeMap.mem_keys, eq_comm]
    · simp [fadeTwice]

end Script

end LayerAnimation
