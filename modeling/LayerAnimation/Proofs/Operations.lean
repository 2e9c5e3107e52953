import LayerAnimation.Proofs.Transitions

/-!
# Operations and their journal

What a caller can do with a stage that has no routines, and which animations that attaches.

- `Operation` lists the calls: motions, animations, moves of the clock, interruptions, and layers
  that are taken into use, released or dropped between any two of them.
- `Operation.attached` lists the completions that a call hands out, one for each animation that it
  attaches, also those that a put-off motion attaches while the clock moves.  `journal` does so for
  a list of calls, and `map_id_attached` says that these are the animations which calls report.
- `transitions_run` says that a list of calls is a run of transitions that hands out its journal.
- `Reachable` also allows for callers that do more than these calls.
-/

namespace LayerAnimation

variable {α : Type}

/-! ## §1 Operations -/

/-- What a caller can do with a stage. -/
inductive Operation (α : Type) where
  | motion (layer : LayerId) (intents : List (Intent α)) (options : Options α)
  | schedule (layer : LayerId) (intents : List (Intent α)) (options : Options α)
  | animate (layer : LayerId) (animation : Animation α)
  | advance (dt : α)
  | advanceTo (t : α)
  | settle
  | interrupt (id : AnimationId)
  | watch (layer : LayerId)
  /-- Someone begins or ends to use a layer. -/
  | hold (layer : LayerId) (hold : Hold)
  | drop (layer : LayerId)

/-- A stage with some layers at time zero, on which nothing has happened yet. -/
def Stage.ofLayers (layers : List (Layer α)) [Scalar α] : PlainStage α :=
  { (Stage.empty () : PlainStage α) with layers := layers.map fun l => some ⟨l, .free, true⟩ }

variable [Scalar α]

theorem Stage.cell?_ofLayers (layers : List (Layer α)) (id : LayerId) :
    (Stage.ofLayers layers).cell? id = layers[id]?.map fun l => ⟨l, .free, true⟩ := by
  simp only [Stage.cell?, Stage.ofLayers, List.getElem?_map]
  cases layers[id]? <;> rfl

/-- The stage after an operation. -/
def Operation.perform (op : Operation α) (s : PlainStage α) : PlainStage α :=
  match op with
  | .motion id intents options => (s.motion id intents options).1
  | .schedule id intents options => s.schedule id intents options
  | .animate id animation => (s.animate id animation).1
  | .advance dt => (s.advance dt).1
  | .advanceTo t => (s.advanceTo t).1
  | .settle => s.settle.1
  | .interrupt id => (s.interrupt id).1
  | .watch id => s.watch id
  | .hold id h => s.setHold id h
  | .drop id => s.dropLayer id

namespace PlainStage

/-- The stage after some operations. -/
def run (s : PlainStage α) (ops : List (Operation α)) : PlainStage α :=
  ops.foldl (fun s op => op.perform s) s

/-! ## §2 The journal -/

/-- The completion that a job hands out when it starts. -/
def startedBy (s : PlainStage α) (job : Job α Empty) : Option (Completion α) :=
  match job with
  | .deferred d => s.performed? d.layer d.intents d.duration d.easing
  | _ => none

/-- The completions that due jobs hand out, of at most `fuel` jobs. -/
def attachedDue (t : α) : Nat → PlainStage α → List (Completion α)
  | 0, _ => []
  | fuel + 1, s =>
      match s.popDue t with
      | none => []
      | some (timer, s) =>
          let s := (s.moveClock timer.due).sync
          (startedBy s timer.job).toList
            ++ attachedDue t fuel (Stage.start exec timer.job s).1

/-- Where nothing is due nothing is handed out. -/
theorem attachedDue_of_idle {s : PlainStage α} {t : α} (h : s.popDue t = none) (fuel : Nat) :
    attachedDue t fuel s = [] := by
  cases fuel with
  | zero => rfl
  | succ fuel => simp only [attachedDue, h]

/-- More fuel than the load of the stage makes no difference. -/
theorem attachedDue_eq {s : PlainStage α} {t : α} {fuel : Nat} (enough : s.load ≤ fuel) :
    attachedDue t fuel s = attachedDue t s.load s := by
  induction s using runDue_induction t generalizing fuel with
  | idle s hidle => rw [attachedDue_of_idle hidle, attachedDue_of_idle hidle]
  | next s u r popped ih =>
    have hload := load_startTimer popped
    obtain ⟨n, hn⟩ : ∃ n, s.load = n + 1 := ⟨s.load - 1, by omega⟩
    obtain ⟨m, rfl⟩ : ∃ m, fuel = m + 1 := ⟨fuel - 1, by omega⟩
    have hrest : attachedDue t m (startTimer u r).1 = attachedDue t n (startTimer u r).1 :=
      (ih (by omega)).trans (ih (by omega)).symm
    rw [hn]
    simp only [attachedDue, popped]
    exact congrArg (_ ++ ·) hrest

/-- The first due job hands out its completion, and then the others. -/
theorem attachedDue_of_popDue {s r : PlainStage α} {t : α} {u : Timer α Empty}
    (popped : s.popDue t = some (u, r)) :
    attachedDue t s.load s = (startedBy (r.moveClock u.due).sync u.job).toList
      ++ attachedDue t (startTimer u r).1.load (startTimer u r).1 := by
  have hload := load_startTimer popped
  obtain ⟨n, hn⟩ : ∃ n, s.load = n + 1 := ⟨s.load - 1, by omega⟩
  have hrest : attachedDue t n (startTimer u r).1
      = attachedDue t (startTimer u r).1.load (startTimer u r).1 := attachedDue_eq (by omega)
  rw [hn, ← hrest]
  simp only [attachedDue, popped]
  rfl

/-- The completions that settling hands out, in at most `rounds` rounds. -/
def attachedSettling (fuel : Nat) : Nat → PlainStage α → List (Completion α)
  | 0, _ => []
  | rounds + 1, s =>
      match s.timers with
      | [] => []
      | timer :: _ =>
          let run := Stage.advanceWithin exec fuel timer.due s
          attachedDue timer.due fuel s
            ++ if doneCount run.2 = 0 then [] else attachedSettling fuel rounds run.1

end PlainStage

/-- The number of the animation that a job started, if it started one. -/
def Firing.started? {ρ : Type} (f : Firing α ρ) : Option AnimationId :=
  match f.outcome with
  | .started id => id
  | _ => none

/-- The numbers of animations that an operation reports to its caller. -/
def Operation.reported (op : Operation α) (s : PlainStage α) : List AnimationId :=
  match op with
  | .motion id intents options => (s.motion id intents options).2.toList
  | .animate id animation => (s.animate id animation).2.toList
  | .advance dt => (s.advance dt).2.filterMap Firing.started?
  | .advanceTo t => (s.advanceTo t).2.filterMap Firing.started?
  | .settle => s.settle.2.filterMap Firing.started?
  | _ => []

/-- The completions that an operation hands out, one for each animation that it attaches. -/
def Operation.attached (op : Operation α) (s : PlainStage α) : List (Completion α) :=
  match op with
  | .motion id intents options =>
      if (0.0 : α) < options.repaired.delay then []
      else (s.performed? id intents options.repaired.duration options.repaired.easing).toList
  | .animate id animation => (s.attached? id animation).toList
  | .advance dt => PlainStage.attachedDue (s.ahead dt) s.load s
  | .advanceTo t => PlainStage.attachedDue t s.load s
  | .settle => PlainStage.attachedSettling s.load s.load s
  | _ => []

namespace PlainStage

/-- The completions that some operations hand out, in the order of the attachments. -/
def journal (s : PlainStage α) : List (Operation α) → List (Completion α)
  | [] => []
  | op :: ops => op.attached s ++ journal (op.perform s) ops

/-! ## §3 Operations are runs of transitions -/

/-- A job that starts hands out what it attaches, and leaves a completion at hand that is
refused. -/
theorem transitions_start (s : PlainStage α) (u : Timer α Empty)
    (hand : Multiset (Completion α)) :
    Stage.Transitions s (↑u.completion?.toList + hand) (startedBy s u.job).toList
      (Stage.start exec u.job s).1
      (↑(Firing.refused? ⟨u.due, u.seq, (Stage.start exec u.job s).2⟩).toList + hand) := by
  obtain ⟨due, seq, job⟩ := u
  cases job with
  | completion c =>
    have hfire := Stage.transitions_fire s hand c .finished
    simp only [Stage.start, startedBy, Timer.completion?, Option.toList_some]
    split <;> next e =>
      rw [e] at hfire
      simpa [Firing.refused?] using hfire
  | deferred d =>
    have hperform := Stage.transitions_perform s hand d.layer d.intents d.duration d.easing
    simpa [Timer.completion?, Firing.refused?, Stage.start, Stage.startDeferred, startedBy]
      using hperform
  | routine r => exact r.elim

/-- So do the due jobs one after the other. -/
theorem transitions_startDue (t : α) (fuel : Nat) (s : PlainStage α)
    (hand : Multiset (Completion α)) :
    Stage.Transitions s hand (attachedDue t fuel s) (Stage.startDue exec t fuel s).1
      (↑((Stage.startDue exec t fuel s).2.filterMap Firing.refused?) + hand) := by
  induction fuel generalizing s hand with
  | zero => simpa [Stage.startDue, attachedDue] using Stage.Transitions.refl
  | succ fuel ih =>
    cases e : s.popDue t with
    | none => simpa [Stage.startDue, attachedDue, e] using Stage.Transitions.refl
    | some popped =>
      obtain ⟨u, rest⟩ := popped
      have htake : Stage.Transitions s hand [] (rest.moveClock u.due).sync
          (↑u.completion?.toList + hand) :=
        (Stage.Transition.take e).run.then .sync
      have hstart := transitions_start (rest.moveClock u.due).sync u hand
      have hrest := ih (Stage.start exec u.job (rest.moveClock u.due).sync).1
        (↑(Firing.refused? ⟨u.due, u.seq,
          (Stage.start exec u.job (rest.moveClock u.due).sync).2⟩).toList + hand)
      have hall := (htake.trans hstart).trans hrest
      simp only [Stage.startDue, attachedDue, e, List.filterMap_cons]
      -- What this job leaves at hand is counted with what the others leave.
      cases hrefused : Firing.refused? ⟨u.due, u.seq,
        (Stage.start exec u.job (rest.moveClock u.due).sync).2⟩ with
      | none => simpa [hrefused] using hall
      | some c => simpa [hrefused, ← Multiset.cons_coe] using hall

/-- Moving the clock to a moment is a run of transitions that leaves nothing more at hand. -/
theorem transitions_advanceWithin {fuel : Nat} {s : PlainStage α} (enough : s.load ≤ fuel) (t : α)
    (hand : Multiset (Completion α)) :
    Stage.Transitions s hand (attachedDue t fuel s) (Stage.advanceWithin exec fuel t s).1 hand := by
  have hdue := transitions_startDue t fuel s hand
  have harrive := hdue.then (.arrive (keepsCost.popDue_startDue t fuel s enough))
  -- What was refused is registered again only when the clock has arrived.
  have hqueue := harrive.trans (Stage.transitions_requeue _ hand _)
  rw [List.append_nil] at hqueue
  exact hqueue.then .sync

/-- So do the rounds of settling, each of them an advance. -/
theorem transitions_settleWithin {fuel : Nat} (rounds : Nat) {s : PlainStage α}
    (enough : s.load ≤ fuel) (hand : Multiset (Completion α)) :
    Stage.Transitions s hand (attachedSettling fuel rounds s)
      (Stage.settleWithin exec fuel rounds s).1 hand := by
  induction rounds generalizing s with
  | zero => exact .refl
  | succ rounds ih =>
    unfold attachedSettling Stage.settleWithin
    cases s.timers with
    | nil => exact .refl
    | cons u us =>
      have hadvance := transitions_advanceWithin enough u.due hand
      have hfall : (Stage.advanceWithin exec fuel u.due s).1.load Empty.elim + _ ≤ s.load :=
        keepsCost.load_advanceWithin fuel u.due s
      -- A round that gets nothing done is the last one.
      by_cases hdone : doneCount (Stage.advanceWithin exec fuel u.due s).2 = 0
      · simpa only [hdone, ↓reduceIte, List.append_nil] using hadvance
      · simp only [hdone, ↓reduceIte]
        refine hadvance.trans (ih ?_)
        change (Stage.advanceWithin exec fuel u.due s).1.load Empty.elim ≤ fuel
        omega

/-- An operation is a run of transitions that hands out what it attaches. -/
theorem transitions_perform (op : Operation α) (s : PlainStage α)
    (hand : Multiset (Completion α)) :
    Stage.Transitions s hand (op.attached s) (op.perform s) hand := by
  cases op with
  | motion id intents options =>
    simp only [Operation.attached, Operation.perform, Stage.motion]
    split
    · exact Stage.transitions_schedule s hand id intents options.repaired
    · exact Stage.transitions_perform s hand id intents _ _
  | schedule id intents options => exact Stage.transitions_schedule s hand id intents options
  | animate id animation => exact Stage.transitions_animate s hand id animation
  | advance dt => exact transitions_advanceWithin (Nat.le_refl _) _ hand
  | advanceTo t => exact transitions_advanceWithin (Nat.le_refl _) t hand
  | settle => exact transitions_settleWithin s.load (Nat.le_refl _) hand
  | interrupt id => exact Stage.transitions_interrupt s hand id
  | watch id => exact Stage.transitions_watch s hand id
  | hold id h => exact Stage.Transition.hold.run
  | drop id => exact Stage.Transition.drop.run

/-- Some operations are a run of transitions that hands out their journal. -/
theorem transitions_run (ops : List (Operation α)) (s : PlainStage α)
    (hand : Multiset (Completion α)) :
    Stage.Transitions s hand (s.journal ops) (s.run ops) hand := by
  induction ops generalizing s with
  | nil => exact .refl
  | cons op ops ih => exact (transitions_perform op s hand).trans (ih (op.perform s))

/-! ## §4 The journal and the reports -/

theorem map_id_performed? (s : PlainStage α) (id : LayerId) (intents : List (Intent α))
    (duration : α) (easing : Easing α) :
    (s.performed? id intents duration easing).map Completion.id
      = (s.perform id intents duration easing).2 := by
  unfold Stage.performed? Stage.perform
  cases s.readable? id with
  | none => rfl
  | some l => exact Stage.map_id_attached? s id _

/-- A job reports the number of the animation that it attaches. -/
theorem map_id_startedBy (s : PlainStage α) (u : Timer α Empty) :
    (startedBy s u.job).map Completion.id
      = (Firing.mk u.due u.seq (Stage.start exec u.job s).2).started? := by
  cases hjob : u.job with
  | completion c =>
    simp only [startedBy, Stage.start]
    split <;> rfl
  | deferred d => exact map_id_performed? s d.layer d.intents d.duration d.easing
  | routine r => exact r.elim

/-- The due jobs report the animations that they attach, in order. -/
theorem map_id_attachedDue (t : α) (fuel : Nat) (s : PlainStage α) :
    (attachedDue t fuel s).map Completion.id
      = (Stage.startDue exec t fuel s).2.filterMap Firing.started? := by
  induction fuel generalizing s with
  | zero => rfl
  | succ fuel ih =>
    cases e : s.popDue t with
    | none => simp only [attachedDue, Stage.startDue, e, List.map_nil, List.filterMap_nil]
    | some popped =>
      obtain ⟨u, rest⟩ := popped
      have hstart := map_id_startedBy (rest.moveClock u.due).sync u
      simp only [attachedDue, Stage.startDue, e, List.map_append, ih, List.filterMap_cons, ← hstart]
      cases startedBy (rest.moveClock u.due).sync u.job <;> rfl

/-- So do all rounds of settling. -/
theorem map_id_attachedSettling (fuel rounds : Nat) (s : PlainStage α) :
    (attachedSettling fuel rounds s).map Completion.id
      = (Stage.settleWithin exec fuel rounds s).2.filterMap Firing.started? := by
  induction rounds generalizing s with
  | zero => rfl
  | succ rounds ih =>
    unfold attachedSettling Stage.settleWithin
    cases s.timers with
    | nil => rfl
    | cons u us =>
      have hdue : (attachedDue u.due fuel s).map Completion.id
          = (Stage.advanceWithin exec fuel u.due s).2.filterMap Firing.started? :=
        map_id_attachedDue u.due fuel s
      dsimp only
      rw [List.map_append, hdue]
      split
      · rw [List.map_nil, List.append_nil]
      · rw [ih, List.filterMap_append]

/-- The journal of an operation has the animations whose numbers the operation reports. -/
theorem map_id_attached (op : Operation α) (s : PlainStage α) :
    (op.attached s).map Completion.id = op.reported s := by
  cases op with
  | motion id intents options =>
    simp only [Operation.attached, Operation.reported, Stage.motion]
    split
    · rfl
    · rw [← map_id_performed?, Option.toList_map]
  | animate id animation =>
    show (s.attached? id animation).toList.map _ = (s.animate id animation).2.toList
    rw [← Stage.map_id_attached?, Option.toList_map]
  | advance dt => exact map_id_attachedDue _ _ s
  | advanceTo t => exact map_id_attachedDue t _ s
  | settle => exact map_id_attachedSettling _ _ s
  | schedule | interrupt | watch | hold | drop => rfl

/-! ## §5 Reachable stages -/

/-- Stages to which a caller can come who may also make layers, change them directly, attach
animations elsewhere and hand over completions of theirs. -/
inductive Reachable : PlainStage α → Prop where
  | ofLayers (layers : List (Layer α)) : Reachable (Stage.ofLayers layers)
  | operation {s} (op : Operation α) : Reachable s → Reachable (op.perform s)
  | addLayer {s} (l : Layer α) : Reachable s → Reachable (s.addLayer l).1
  | setLayer {s} (id : LayerId) (l : Layer α) : Reachable s → Reachable (s.setLayer id l)
  | drawId {s} : Reachable s → Reachable s.drawId
  | enqueueCompletion {s} (after : α) (c : Completion α) :
      Reachable s → Reachable (s.enqueueCompletion after c)

theorem Reachable.run {s : PlainStage α} (h : Reachable s) (ops : List (Operation α)) :
    Reachable (s.run ops) := by
  induction ops generalizing s with
  | nil => exact h
  | cons op ops ih => exact ih (h.operation op)

end PlainStage

end LayerAnimation
