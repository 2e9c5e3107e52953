import LayerAnimation.Proofs.Cells
import LayerAnimation.Proofs.Rounds
import Mathlib.Data.Multiset.MapFold
import Mathlib.Data.Multiset.Filter

/-!
# Transitions of a stage

Whatever is done with a stage is done in transitions of twelve kinds, so an invariant that these
twelve keep holds wherever any run leads.

A completion that the clock has taken from the queue and that is not committed yet stands beside
the stage, among the completions *at hand*: after a refusal it stays there until it is registered
again.  Completions at hand and waiting ones have no order that matters to an invariant; both are
multisets.

- `Stage.Transition` is one transition, with the completion that it hands out if it attaches an
  animation.
- `Stage.Transitions` is a run of them, with all completions that it hands out, in order.
- The operations of a stage are such runs (`Stage.transitions_animate`, `Stage.transitions_perform`,
  `Stage.transitions_interrupt`, ...).
-/

namespace LayerAnimation

variable {α κ σ : Type}

/-! ## §1 Waiting completions -/

/-- The completion that waits under a timer, if its job is one. -/
def Timer.completion? (u : Timer α κ) : Option (Completion α) :=
  match u.job with
  | .completion c => some c
  | _ => none

theorem Timer.completion?_eq_some_iff {u : Timer α κ} {c : Completion α} :
    u.completion? = some c ↔ u.job = .completion c := by
  unfold completion?
  cases u.job <;> simp

namespace Stage

/-- The completions that wait on a stage, in the order in which they will start. -/
def completions (s : Stage α κ σ) : List (Completion α) :=
  s.timers.filterMap Timer.completion?

/-- The completions that wait on a stage, without their order. -/
def waiting (s : Stage α κ σ) : Multiset (Completion α) :=
  ↑s.completions

/-- A completion waits if it is the job of a timer. -/
theorem mem_waiting {s : Stage α κ σ} {c : Completion α} :
    c ∈ s.waiting ↔ ∃ u ∈ s.timers, u.job = .completion c := by
  simp only [waiting, completions, Multiset.mem_coe, List.mem_filterMap,
    Timer.completion?_eq_some_iff]

theorem waiting_congr {s r : Stage α κ σ} (h : s.timers = r.timers) : s.waiting = r.waiting := by
  rw [waiting, waiting, completions, completions, h]

/-- Cancelling an animation takes the timer that is found first, and no other. -/
theorem exists_split_of_find? {s : Stage α κ σ} {id : AnimationId} {u : Timer α κ}
    (found : s.timers.find? (Timer.isCompletionOf id) = some u) :
    ∃ before after, s.timers = before ++ u :: after ∧ (s.cancel id).timers = before ++ after := by
  obtain ⟨hfound, before, after, hsplit, hbefore⟩ := List.find?_eq_some_iff_append.mp found
  refine ⟨before, after, hsplit, ?_⟩
  show s.timers.eraseP (Timer.isCompletionOf id) = before ++ after
  rw [hsplit, List.eraseP_append_right _ (fun v hv => by simpa using hbefore v hv),
    List.eraseP_cons_of_pos hfound]

/-- Cancelling an animation takes its first completion. -/
theorem waiting_of_find? {s : Stage α κ σ} {id : AnimationId} {u : Timer α κ} {c : Completion α}
    (h : s.timers.find? (Timer.isCompletionOf id) = some u) (hc : u.completion? = some c) :
    s.waiting = c ::ₘ (s.cancel id).waiting := by
  obtain ⟨before, after, hsplit, hcancel⟩ := exists_split_of_find? h
  simp only [waiting, completions, hsplit, hcancel, List.filterMap_append, List.filterMap_cons, hc,
    Multiset.cons_coe, Multiset.coe_eq_coe]
  exact List.perm_middle

variable [Scalar α]

/-- A job that is taken waits no longer. -/
theorem waiting_of_popDue {s rest : Stage α κ σ} {t : α} {u : Timer α κ}
    (h : s.popDue t = some (u, rest)) : s.waiting = ↑u.completion?.toList + rest.waiting := by
  obtain ⟨us, hfirst, -, rfl⟩ := popDue_eq_some_iff.mp h
  simp only [waiting, completions, hfirst, List.filterMap_cons]
  cases u.completion? <;> rfl

/-- Among the completions, a job that is put into the queue adds itself if it is one. -/
theorem waiting_enqueue (s : Stage α κ σ) (after : α) (job : Job α κ) :
    (s.enqueue after job).waiting
      = ↑(Timer.completion? ⟨s.now + wait after, s.seq + 1, job⟩).toList + s.waiting := by
  simp only [waiting, completions, enqueue, Multiset.coe_add, Multiset.coe_eq_coe]
  generalize (⟨s.now + wait after, s.seq + 1, job⟩ : Timer α κ) = t
  -- Wherever among the others the timer goes in, it is one more.
  induction s.timers with
  | nil => cases h : t.completion? <;> simp [Timer.insert, h]
  | cons u us ih =>
    unfold Timer.insert
    split
    · cases h : t.completion? <;> simp [List.filterMap_cons, h]
    · simp only [List.filterMap_cons]
      cases hu : u.completion? with
      | none => exact ih
      | some d =>
        refine (ih.cons d).trans ?_
        cases t.completion? with
        | none => exact List.Perm.refl _
        | some c => exact List.Perm.swap c d _

theorem waiting_enqueue_completion (s : Stage α κ σ) (after : α) (c : Completion α) :
    (s.enqueue after (.completion c)).waiting = c ::ₘ s.waiting := by
  rw [waiting_enqueue]
  rfl

theorem waiting_enqueue_deferred (s : Stage α κ σ) (after : α) (d : Deferred α) :
    (s.enqueue after (.deferred d)).waiting = s.waiting := by
  rw [waiting_enqueue]
  rfl

/-- A completion that is registered waits with the others. -/
theorem waiting_enqueueCompletion (s : Stage α κ σ) (after : α) (c : Completion α) :
    (s.enqueueCompletion after c).waiting = c ::ₘ s.waiting := by
  rw [enqueueCompletion, waiting_enqueue_completion, waiting_congr (timers_follow s c.layer)]

/-! ## §2 Transitions -/

/-- One transition of a stage, from a stage and the completions at hand to a stage and the
completions at hand.  Between them stands the completion that is handed out if an animation is
attached. -/
inductive Transition :
    Stage α κ σ → Multiset (Completion α) → Option (Completion α) →
      Stage α κ σ → Multiset (Completion α) → Prop where
  /-- The clock arrives at a moment up to which nothing is due. -/
  | arrive {s hand t} (idle : s.popDue t = none) : Transition s hand none (s.moveClock t) hand
  /-- The clocks of the followed layers move. -/
  | sync {s hand} : Transition s hand none s.sync hand
  /-- A layer is followed. -/
  | follow {s hand id} : Transition s hand none (s.follow id) hand
  /-- A layer changes hands among its users. -/
  | hold {s hand id hold} : Transition s hand none (s.setHold id hold) hand
  /-- A layer is given up by its owner. -/
  | drop {s hand id} : Transition s hand none (s.dropLayer id) hand
  /-- A number is drawn and lost. -/
  | draw {s hand} : Transition s hand none s.drawId hand
  /-- An animation is attached to a layer that is free, and its completion is registered. -/
  | attach {s hand id l} (a : Animation α) (writable : s.writable? id = some l) :
      Transition s hand (some ⟨id, s.nextId, (l.attach s.nextId s.now a).2⟩)
        ((s.drawId.setLayer id (l.attach s.nextId s.now a).1).enqueueCompletion (completionDelay a)
          ⟨id, s.nextId, (l.attach s.nextId s.now a).2⟩) hand
  /-- A motion is put off. -/
  | putOff {s hand after d} : Transition s hand none (s.enqueue after (.deferred d)) hand
  /-- The first job is taken, and the clock moves to its due time; a completion comes to hand. -/
  | take {s rest hand t u} (popped : s.popDue t = some (u, rest)) :
      Transition s hand none (rest.moveClock u.due) (↑u.completion?.toList + hand)
  /-- The first completion of an animation is withdrawn and comes to hand. -/
  | withdraw {s hand id u c} (found : s.timers.find? (Timer.isCompletionOf id) = some u)
      (isCompletion : u.completion? = some c) :
      Transition s hand none (s.cancel id) (c ::ₘ hand)
  /-- A completion at hand is committed, or dropped with its layer. -/
  | commit {s s' hand c ending n} (fired : s.fire c ending = (s', .ok n)) :
      Transition s (c ::ₘ hand) none s' hand
  /-- A completion at hand is registered again. -/
  | requeue {s hand c} : Transition s (c ::ₘ hand) none (s.enqueue 0.0 (.completion c)) hand

/-- Without an attachment layers are left alone, or a completion is committed. -/
theorem Transition.keepsLayers {s s' : Stage α κ σ} {hand hand' : Multiset (Completion α)}
    (h : Transition s hand none s' hand') :
    KeepsLayers s s' ∨ ∃ c ending n, s.fire c ending = (s', .ok n) := by
  cases h with
  | arrive | draw | putOff | withdraw | requeue => exact .inl (.of_cell? rfl)
  | sync => exact .inl (keepsLayers_sync s)
  | follow => exact .inl (keepsLayers_follow s _)
  | hold => exact .inl (keepsLayers_setHold s _ _)
  | drop => exact .inl (keepsLayers_dropLayer s _)
  | take popped =>
    obtain ⟨us, -, -, rfl⟩ := popDue_eq_some_iff.mp popped
    exact .inl (.of_cell? rfl)
  | commit fired => exact .inr ⟨_, _, _, fired⟩

/-- A run of transitions, with all completions that were handed out. -/
inductive Transitions :
    Stage α κ σ → Multiset (Completion α) → List (Completion α) →
      Stage α κ σ → Multiset (Completion α) → Prop where
  | refl {s hand} : Transitions s hand [] s hand
  | tail {s s' s'' hand hand' hand'' cs c} (run : Transitions s hand cs s' hand')
      (last : Transition s' hand' c s'' hand'') :
      Transitions s hand (cs ++ c.toList) s'' hand''

/-- A run may go on with another one. -/
theorem Transitions.trans {s s' s'' : Stage α κ σ} {hand hand' hand'' : Multiset (Completion α)}
    {cs ds : List (Completion α)} (h₁ : Transitions s hand cs s' hand')
    (h₂ : Transitions s' hand' ds s'' hand'') : Transitions s hand (cs ++ ds) s'' hand'' := by
  induction h₂ with
  | refl => simpa using h₁
  | tail _ last ih =>
    rw [← List.append_assoc]
    exact .tail (ih h₁) last

/-- A transition is a run. -/
theorem Transition.run {s s' : Stage α κ σ} {hand hand' : Multiset (Completion α)}
    {c : Option (Completion α)} (h : Transition s hand c s' hand') :
    Transitions s hand c.toList s' hand' :=
  .tail .refl h

theorem Transitions.then {s s' s'' : Stage α κ σ} {hand hand' hand'' : Multiset (Completion α)}
    {cs : List (Completion α)} (h₁ : Transitions s hand cs s' hand')
    (h₂ : Transition s' hand' none s'' hand'') : Transitions s hand cs s'' hand'' := by
  simpa using Transitions.tail h₁ h₂

/-! ## §3 The operations as runs -/

section Operations

variable (s : Stage α κ σ) (hand : Multiset (Completion α))

/-- The completion that `animate` hands out, if it attaches the animation. -/
def attached? (id : LayerId) (a : Animation α) : Option (Completion α) :=
  (s.attach s.now id a).2

/-- The completion that `perform` hands out, if it attaches the motion. -/
def performed? (id : LayerId) (intents : List (Intent α)) (duration : α) (easing : Easing α) :
    Option (Completion α) :=
  (s.readable? id).bind fun l =>
    s.attached? id (.group (.assemble (l.compile intents) duration easing))

/-- Animating draws a number, and attaches if the layer is free. -/
theorem transitions_animate (id : LayerId) (a : Animation α) :
    Transitions s hand (s.attached? id a).toList (s.animate id a).1 hand := by
  simp only [attached?, animate, attach]
  cases h : s.writable? id with
  | none => exact Transition.draw.run
  | some l => exact (Transition.attach a h).run

/-- What `animate` returns is the number of what it hands out. -/
theorem map_id_attached? (id : LayerId) (a : Animation α) :
    (s.attached? id a).map Completion.id = (s.animate id a).2 := by
  unfold attached? animate
  cases s.attach s.now id a with
  | mk s' c => cases c <;> rfl

/-- Making a motion at once is animating the layer, if it can be read. -/
theorem transitions_perform (id : LayerId) (intents : List (Intent α)) (duration : α)
    (easing : Easing α) :
    Transitions s hand (s.performed? id intents duration easing).toList
      (s.perform id intents duration easing).1 hand := by
  simp only [performed?, perform]
  cases s.readable? id with
  | none => exact .refl
  | some l => exact transitions_animate s hand id _

theorem transitions_schedule (id : LayerId) (intents : List (Intent α)) (o : Options α) :
    Transitions s hand [] (s.schedule id intents o) hand :=
  Transition.putOff.run

/-- To watch a layer is to follow it, and to synchronise at once. -/
theorem transitions_watch (id : LayerId) : Transitions s hand [] (s.watch id) hand :=
  Transition.follow.run.then .sync

/-- Completions at hand are registered again one by one. -/
theorem transitions_requeue (cs : List (Completion α)) :
    Transitions s (↑cs + hand) [] (s.requeue cs) hand := by
  induction cs generalizing s with
  | nil => simpa [requeue] using Transitions.refl
  | cons c cs ih =>
    rw [← Multiset.cons_coe, Multiset.cons_add]
    exact Transition.requeue.run.trans (ih (s.enqueue 0.0 (.completion c)))

/-- A completion at hand is committed, or stays at hand. -/
theorem transitions_fire (c : Completion α) (ending : Ending) :
    Transitions s (c ::ₘ hand) [] (s.fire c ending).1
      (match (s.fire c ending).2 with
        | .ok _ => hand
        | .error c => c ::ₘ hand) := by
  cases h : (s.fire c ending).2 with
  | ok n =>
    have hcommit : s.fire c ending = ((s.fire c ending).1, .ok n) := by rw [← h]
    exact (Transition.commit hcommit).run
  | error d =>
    -- A completion that is refused is handed back as it was, and nothing has changed.
    have hrefused : s.fire c ending = (s, .error c) := by
      unfold fire at h ⊢
      split at h
      · cases h
      · split at h
        · cases h
        · next hheld => simp only [hheld, Bool.false_eq_true, ↓reduceIte]
    rw [hrefused] at h
    cases h
    rw [hrefused]
    exact .refl

/-- Interrupting an animation withdraws its completion, and commits or registers it. -/
theorem transitions_interrupt (id : AnimationId) :
    Transitions s hand [] (s.interrupt id).1 hand := by
  unfold interrupt
  split
  · next due seq c hfound =>
    have hwithdraw : Transition s hand none (s.cancel id) (c ::ₘ hand) := .withdraw hfound rfl
    have hfire := transitions_fire (s.cancel id) hand c .interrupted
    split
    · next e =>
      rw [e] at hfire
      exact hwithdraw.run.trans hfire
    · next e =>
      rw [e] at hfire
      exact (hwithdraw.run.trans hfire).then .requeue
  · exact .refl

end Operations

end Stage

end LayerAnimation
