import LayerAnimation.Proofs.Double.Clock
import LayerAnimation.Proofs.SessionTwins
import LayerAnimation.Proofs.Sessions

/-!
# A lone track and a group of one

A lone track brings its own timing; a group resolves the durations of its members.  For a negative
duration the two resolve to different numbers, and their completions differ as well.  None of this
can be seen, then or later.

- `Stage.call` is one call of a caller on a stage with routines, with what it returns, and
  `Stage.calls` is a run of them.
- `Stage.Indistinguishable` is all that can be seen of two stages; twins are so
  (`Stage.Twin.indistinguishable`).
- `Stage.animate_grouped` is the statement: whether a track is animated alone or as the only member
  of a group, all later calls return the same and lead to stages that cannot be told apart.
-/

namespace LayerAnimation

variable {α κ σ ρ : Type} [Scalar α]

/-! ## §1 Calls -/

/-- What a call returns. -/
inductive Receipt where
  /-- The number of an animation, if one was attached. -/
  | attached (id : Option AnimationId)
  /-- How many jobs are done. -/
  | done (count : Nat)
  /-- Whether there was something to interrupt. -/
  | found (interrupted : Bool)
  | nothing
  deriving DecidableEq

namespace Stage

section Calls

variable (exec : κ → Stage α κ σ → Stage α κ σ × ρ) (cost : κ → Nat)

/-- A call on a stage with routines.  The clock may start as many jobs as can come of those that
wait. -/
def call (op : Operation α) (s : Stage α κ σ) : Stage α κ σ × Receipt :=
  match op with
  | .motion id intents options =>
      let result := s.motion id intents options
      (result.1, .attached result.2)
  | .schedule id intents options => (s.schedule id intents options, .nothing)
  | .animate id animation =>
      let result := s.animate id animation
      (result.1, .attached result.2)
  | .advance dt =>
      let run := advanceWithin exec (s.load cost) (s.ahead dt) s
      (run.1, .done (doneCount run.2))
  | .advanceTo t =>
      let run := advanceWithin exec (s.load cost) t s
      (run.1, .done (doneCount run.2))
  | .settle =>
      let run := settleWithin exec (s.load cost) (s.load cost) s
      (run.1, .done (doneCount run.2))
  | .interrupt id =>
      let result := s.interrupt id
      (result.1, .found result.2)
  | .watch id => (s.watch id, .nothing)
  | .hold id h => (s.setHold id h, .nothing)
  | .drop id => (s.dropLayer id, .nothing)

/-- Calls one after the other, with what they return. -/
def calls : List (Operation α) → Stage α κ σ → Stage α κ σ × List Receipt
  | [], s => (s, [])
  | op :: ops, s =>
      let first := call exec cost op s
      let rest := calls ops first.1
      (rest.1, first.2 :: rest.2)

end Calls

/-- Where there are no routines these are the operations of a plain stage. -/
theorem calls_plain (ops : List (Operation α)) (s : PlainStage α) :
    (calls PlainStage.exec Empty.elim ops s).1 = s.run ops := by
  induction ops generalizing s with
  | nil => rfl
  | cons op ops ih =>
    have hcall : (call PlainStage.exec Empty.elim op s).1 = op.perform s := by
      cases op <;> rfl
    refine (ih _).trans ?_
    rw [hcall]
    rfl

end Stage

/-! ## §2 What can be seen -/

/-- What can be seen of a layer: its values, what it shows, which animation runs under which
attribute, and its clock. -/
structure Sight (α : Type) where
  values : AttributeMap (Value α)
  shown : AttributeMap (Value α)
  running : AttributeMap AnimationId
  clock : α

def Layer.sight (l : Layer α) : Sight α :=
  ⟨l.values, l.snapshot, .ofFn fun k => (l.playing.get? k).map Playback.id, l.clock⟩

theorem Layer.Twin.sight_eq {l l' : Layer α} (h : l.Twin l') : l'.sight = l.sight := by
  have hrunning : ∀ k, (l'.playing.get? k).map Playback.id = (l.playing.get? k).map Playback.id := by
    intro k
    have hplaying := h.playing k
    generalize l.playing.get? k = p at hplaying ⊢
    generalize l'.playing.get? k = q at hplaying ⊢
    cases hplaying with
    | none => rfl
    | some htwin => exact congrArg some htwin.id
  simp only [sight, h.values, h.snapshot_eq, funext hrunning, h.clock]

namespace Stage

/-- The same can be seen of every layer, the same layers are in use, and the clock, the next number
and the count of waiting jobs agree. -/
structure Indistinguishable (s r : Stage α κ σ) : Prop where
  layer : ∀ b, (r.cell? b).map (fun c => (c.layer.sight, c.hold))
    = (s.cell? b).map fun c => (c.layer.sight, c.hold)
  now : r.now = s.now
  nextId : r.nextId = s.nextId
  pending : r.pending = s.pending

theorem Twin.indistinguishable {s r : Stage α κ σ} (h : s.Twin r) : s.Indistinguishable r where
  layer b := by
    rcases h.cell_cases b with ⟨hs, hr⟩ | ⟨c, c', hs, hr, htwin⟩
    · rw [hs, hr]
    · simp only [hs, hr, Option.map_some, htwin.layer.sight_eq, htwin.hold]
  now := h.now
  nextId := h.nextId
  pending := h.timers.length_eq.symm

variable {exec : κ → Stage α κ σ → Stage α κ σ × ρ} {s r : Stage α κ σ}

theorem Twin.call (h : s.Twin r) (blind : Blind exec) (cost : κ → Nat) (op : Operation α) :
    (Stage.call exec cost op s).1.Twin (Stage.call exec cost op r).1 ∧
      (Stage.call exec cost op r).2 = (Stage.call exec cost op s).2 := by
  -- Both stages have the same jobs to run, so the same fuel is given to both.
  have hload := h.load_eq cost
  cases op with
  | motion id intents options =>
    obtain ⟨hstage, hid⟩ := h.motion id intents options
    exact ⟨hstage, congrArg Receipt.attached hid⟩
  | schedule id intents options => exact ⟨h.schedule id intents options, rfl⟩
  | animate id a =>
    obtain ⟨hstage, hid⟩ := h.animate id (.refl a)
    exact ⟨hstage, congrArg Receipt.attached hid⟩
  | advance dt =>
    have hmoment : r.ahead dt = s.ahead dt := by simp only [ahead, h.now]
    obtain ⟨hstage, hcount⟩ := h.advanceWithin blind (s.load cost) (s.ahead dt)
    simp only [Stage.call, hload, hmoment]
    exact ⟨hstage, congrArg Receipt.done hcount⟩
  | advanceTo t =>
    obtain ⟨hstage, hcount⟩ := h.advanceWithin blind (s.load cost) t
    simp only [Stage.call, hload]
    exact ⟨hstage, congrArg Receipt.done hcount⟩
  | settle =>
    obtain ⟨hstage, hcount⟩ := h.settleWithin blind (s.load cost) (s.load cost)
    simp only [Stage.call, hload]
    exact ⟨hstage, congrArg Receipt.done hcount⟩
  | interrupt id =>
    obtain ⟨hstage, hfound⟩ := h.interrupt id
    exact ⟨hstage, congrArg Receipt.found hfound⟩
  | watch id => exact ⟨h.watch id, rfl⟩
  | hold id hold => exact ⟨h.setHold id hold, rfl⟩
  | drop id => exact ⟨h.dropLayer id, rfl⟩

theorem Twin.calls (h : s.Twin r) (blind : Blind exec) (cost : κ → Nat) (ops : List (Operation α)) :
    (Stage.calls exec cost ops s).1.Twin (Stage.calls exec cost ops r).1 ∧
      (Stage.calls exec cost ops r).2 = (Stage.calls exec cost ops s).2 := by
  induction ops generalizing s r with
  | nil => exact ⟨h, rfl⟩
  | cons op ops ih =>
    obtain ⟨hfirst, hreceipt⟩ := h.call blind cost op
    obtain ⟨hrest, hreceipts⟩ := ih hfirst
    exact ⟨hrest, congrArg₂ List.cons hreceipt hreceipts⟩

end Stage

/-! ## §3 Groups of one -/

/-- The group whose only member is a track, with the timing that the track has alone. -/
def Track.grouped (t : Track α) (removedOnCompletion : Bool) : Group α :=
  ⟨[t], t.duration.getD Options.standardDuration, .easeInOut, .forwards, removedOnCompletion⟩

section Grouped

variable [LawfulTime α] {t : Track α}
  (finite : Scalar.isFinite (t.duration.getD Options.standardDuration) = true)

include finite

/-- The member of such a group runs as long as the track alone, unless neither of them runs at
all. -/
theorem Track.trackDuration_grouped (removed : Bool) (start : Option (Value α)) :
    let alone := t.duration.getD Options.standardDuration
    let member := (t.grouped removed).trackDuration { t with start }
    member = alone ∨ alone ≤ 0.0 ∧ member ≤ 0.0 := by
  have hspan : (t.grouped removed).span
      = Scalar.larger (t.duration.getD Options.standardDuration) 0.0 := if_pos finite
  simp only [Group.trackDuration, hspan]
  by_cases hle : t.duration.getD Options.standardDuration ≤ (0.0 : α)
  · refine .inr ⟨hle, ?_⟩
    rw [LawfulTime.larger_of_le hle]
    cases hd : t.duration with
    | none => exact LawfulTime.zero_le_zero
    | some d =>
      -- Cut to nothing, a negative duration is raised to nothing again.
      rw [hd, Option.getD_some] at hle
      have hcut : Scalar.smaller d 0.0 ≤ (0.0 : α) := by
        unfold Scalar.smaller
        split
        · exact hle
        · split
          · exact LawfulTime.zero_le_zero
          · exact hle
      simp only [LawfulTime.larger_of_le hcut]
      exact LawfulTime.zero_le_zero
  · left
    have hproper := LawfulTime.le_self_of_isFinite finite
    have hkept := LawfulTime.larger_of_not_le hproper hle
    rw [hkept]
    cases hd : t.duration with
    | none => rfl
    | some d =>
      have hcut : Scalar.smaller d d = d := by simp [Scalar.smaller]
      rw [hd, Option.getD_some] at hkept
      simp only [Option.getD_some, hcut, hkept]

/-- A track alone and in such a group starts the same, and ends at the same time. -/
theorem Track.twin_grouped (removed : Bool) :
    (Animation.track t).Twin (.group (t.grouped removed)) where
  tracks := rfl
  delay := rfl
  playback := by
    intro t' ht' start id now
    obtain rfl : t' = t := List.mem_singleton.mp ht'
    refine ⟨rfl, rfl, rfl, rfl, rfl, ?_⟩
    rcases t'.trackDuration_grouped finite removed start with hsame | hover
    · exact .inl hsame
    · exact .inr ⟨rfl, hover⟩

end Grouped

namespace Stage

theorem blind_plain : Blind (PlainStage.exec (α := α)) :=
  fun task => task.elim

/-- Whether a track is animated alone, or as the only member of a group with the timing that it has
alone, cannot be told.  On any stage, and for any duration that is a finite number, both ways return
the same number, and whatever is called afterwards returns the same and leads to stages of which the
same can be seen.  Where there are routines they must not look at how long a track runs; those of a
session do not. -/
theorem animate_grouped :
    Blind (PlainStage.exec (α := Float)) ∧
    (∀ fuel, Blind (Session.runRoutine (α := Float) (Session.perform fuel))) ∧
    ∀ {κ σ ρ : Type} (exec : κ → Stage Float κ σ → Stage Float κ σ × ρ) (cost : κ → Nat),
      Blind exec →
      ∀ (s : Stage Float κ σ) (id : LayerId) (t : Track Float) (removed : Bool),
        (∀ d ∈ t.duration, Scalar.isFinite d = true) →
        ∀ ops : List (Operation Float),
          let alone := s.animate id (.track t)
          let grouped := s.animate id (.group (t.grouped removed))
          grouped.2 = alone.2 ∧
            (calls exec cost ops grouped.1).2 = (calls exec cost ops alone.1).2 ∧
            Indistinguishable (calls exec cost ops alone.1).1 (calls exec cost ops grouped.1).1 := by
  refine ⟨blind_plain, Session.blind_runRoutine, ?_⟩
  intro κ σ ρ exec cost blind s id t removed finite ops
  -- A track without a duration of its own runs for the standard one, alone as well as in the group.
  have hfinite : Scalar.isFinite (t.duration.getD Options.standardDuration) = true := by
    cases hd : t.duration with
    | none => decide +kernel
    | some d => exact finite d hd
  obtain ⟨htwin, hid⟩ := (Twin.refl s).animate id (t.twin_grouped hfinite removed)
  obtain ⟨hcalls, hreceipts⟩ := htwin.calls blind cost ops
  exact ⟨hid, hreceipts, hcalls.indistinguishable⟩

/-- A session with a layer, and with a routine that is going to move it. -/
def moveAhead : Session Float :=
  ((Session.fresh : Session Float).addNamed "sheet" (.ofValues .empty)).enqueue 0.1
    (.routine ⟨.null, [.motion "sheet" [.scale 2.0] Options.standard]⟩)

/-- A track with a negative duration. -/
def backInTime : Track Float :=
  (Track.toward .opacity (.scalar 0.0)).lasting (-1.0)

/-- What is called afterwards. -/
def fadeAgain : List (Operation Float) :=
  [.advance 0.05, .motion 0 [.fade 0.5] Options.standard, .interrupt 1, .advance 0.1]

/-- The running tracks have different durations, and nothing else comes of it. -/
theorem animate_grouped_backInTime :
    let exec := Session.runRoutine (α := Float) (Session.perform 9)
    let alone := moveAhead.animate 0 (.track backInTime)
    let grouped := moveAhead.animate 0 (.group (backInTime.grouped true))
    let duration? (s : Session Float) :=
      ((s.cell? 0).bind (·.layer.playing.get? .opacity)).map Playback.duration
    Blind exec ∧ (∀ d ∈ backInTime.duration, Scalar.isFinite d = true) ∧
    (duration? alone.1 == some (-1.0)) = true ∧ (duration? grouped.1 == some 0.0) = true ∧
    (calls exec Routine.cost fadeAgain grouped.1).2 = (calls exec Routine.cost fadeAgain alone.1).2 ∧
    Indistinguishable (calls exec Routine.cost fadeAgain alone.1).1
      (calls exec Routine.cost fadeAgain grouped.1).1 := by
  have hfinite : ∀ d ∈ backInTime.duration, Scalar.isFinite d = true := by
    intro d hd
    obtain rfl := Option.some.inj hd
    decide +kernel
  obtain ⟨-, hblind, hsame⟩ := animate_grouped
  obtain ⟨-, hreceipts, hseen⟩ := hsame _ Routine.cost (hblind 9) moveAhead 0 backInTime true
    hfinite fadeAgain
  exact ⟨hblind 9, hfinite, by decide +kernel, by decide +kernel, hreceipts, hseen⟩

end Stage

end LayerAnimation
