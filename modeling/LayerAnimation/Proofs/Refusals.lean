import LayerAnimation.Proofs.Visibility

/-!
# What a refusal costs

A layer that is in use can be neither attached to nor committed.  There are five ways to be refused:
a writer keeps a motion from being compiled, any user keeps an animation from being attached, at
once or when a motion that was put off starts, and a completion from being fired by the clock or by
an interruption.

- `Stage.Untouched` says that nothing is different but perhaps the number of the next animation; a
  refused attachment costs no more than that number (`Stage.attach_of_held`,
  `Stage.motion_of_held`).
- A refused completion is handed back as it was, and nothing is different at all
  (`Stage.fire_of_held`).  What it comes to when it is fired later depends on the layers only
  (`Stage.fire_withLayers`).
- `Stage.Requeued` says that one completion waits again and all other jobs wait as before, which is
  what a refused interruption comes to (`Course.requeued_of_held`).
- `Course.refused_of_held` puts all of it together.
-/

namespace LayerAnimation

variable {α κ σ : Type}

namespace Timer

variable [Scalar α] {t : Timer α κ} {us : List (Timer α κ)}

/-- A timer finds a place between two parts of every queue. -/
theorem exists_insert_append (t : Timer α κ) (us : List (Timer α κ)) :
    ∃ front back, us = front ++ back ∧ t.insert us = front ++ t :: back := by
  induction us with
  | nil => exact ⟨[], [], rfl, rfl⟩
  | cons u us ih =>
    by_cases hlt : t.due < u.due
    · exact ⟨[], u :: us, rfl, if_pos hlt⟩
    · obtain ⟨front, back, rfl, hinsert⟩ := ih
      refine ⟨u :: front, back, rfl, ?_⟩
      rw [insert, if_neg hlt, hinsert]
      rfl

theorem find?_insert {p : Timer α κ → Bool} (h : p t = true) (others : ∀ u ∈ us, p u = false) :
    (t.insert us).find? p = some t := by
  obtain ⟨front, back, rfl, hinsert⟩ := exists_insert_append t us
  have hfront : front.find? p = none :=
    List.find?_eq_none.mpr fun u hu => by simp [others u (List.mem_append_left back hu)]
  rw [hinsert, List.find?_append, hfront, List.find?_cons_of_pos h]
  rfl

theorem eraseP_insert {p : Timer α κ → Bool} (h : p t = true) (others : ∀ u ∈ us, p u = false) :
    (t.insert us).eraseP p = us := by
  obtain ⟨front, back, rfl, hinsert⟩ := exists_insert_append t us
  have hfront : ∀ u ∈ front, ¬ p u = true :=
    fun u hu => by simp [others u (List.mem_append_left back hu)]
  rw [hinsert, List.eraseP_append_right _ hfront, List.eraseP_cons_of_pos h]

end Timer

namespace Stage

/-! ## §1 Refused attachments -/

/-- Nothing is different but perhaps the number of the next animation. -/
structure Untouched (s s' : Stage α κ σ) : Prop where
  layers : s'.layers = s.layers
  now : s'.now = s.now
  seq : s'.seq = s.seq
  timers : s'.timers = s.timers
  followed : s'.followed = s.followed
  desk : s'.desk = s.desk

theorem Untouched.refl (s : Stage α κ σ) : Untouched s s :=
  ⟨rfl, rfl, rfl, rfl, rfl, rfl⟩

theorem untouched_drawId (s : Stage α κ σ) : Untouched s s.drawId :=
  ⟨rfl, rfl, rfl, rfl, rfl, rfl⟩

/-- A number is drawn and lost, or not even drawn. -/
theorem untouched_ite (s : Stage α κ σ) (p : Prop) [Decidable p] :
    Untouched s (if p then s else s.drawId) := by
  split
  · exact .refl s
  · exact untouched_drawId s

section Held

variable [Scalar α] {s : Stage α κ σ} {id : LayerId} {hold : Hold}
  (inUse : s.hold? id = some hold) (held : hold ≠ .free)

include inUse held

/-- Any user keeps an animation from being attached, and the number that was drawn is lost. -/
theorem attach_of_held (now : α) (a : Animation α) : s.attach now id a = (s.drawId, none) := by
  have hnone : s.writable? id = none := by
    rw [writable?_eq_none_iff, inUse]
    exact fun h => held (Option.some.inj h)
  rw [attach, hnone]

theorem animate_of_held (a : Animation α) : s.animate id a = (s.drawId, none) := by
  rw [animate, attach_of_held inUse held]

/-- A writer keeps a motion from being compiled, before a number is drawn; readers keep it from
being attached. -/
theorem perform_of_held (intents : List (Intent α)) (duration : α) (easing : Easing α) :
    s.perform id intents duration easing
      = (if hold = .exclusive then s else s.drawId, none) := by
  have hanimate := animate_of_held inUse held
  obtain ⟨cell, hcell, rfl⟩ := Option.map_eq_some_iff.mp inUse
  unfold perform readable?
  rw [hcell]
  cases hhold : cell.hold with
  | free => exact absurd hhold held
  | shared => simp [hhold, Hold.admitsReader, hanimate]
  | exclusive => simp [hhold, Hold.admitsReader]

theorem motion_of_held {o : Options α} (undelayed : ¬ (0.0 : α) < o.repaired.delay)
    (intents : List (Intent α)) :
    s.motion id intents o = (if hold = .exclusive then s else s.drawId, none) := by
  rw [motion, if_neg undelayed]
  exact perform_of_held inUse held intents _ _

end Held

/-! ## §2 Refused completions -/

/-- The stage with its layers in another state. -/
def withLayers (s : Stage α κ σ) (layers : List (Option (Cell α))) : Stage α κ σ :=
  { s with layers := layers }

/-- What firing a completion comes to depends on the layers only. -/
theorem fire_withLayers (s s' : Stage α κ σ) (layers : List (Option (Cell α))) (c : Completion α)
    (ending : Ending) :
    (s'.withLayers layers).fire c ending
      = (s'.withLayers ((s.withLayers layers).fire c ending).1.layers,
        ((s.withLayers layers).fire c ending).2) := by
  have hcell : (s'.withLayers layers).cell? c.layer = (s.withLayers layers).cell? c.layer := rfl
  unfold fire
  rw [hcell]
  cases (s.withLayers layers).cell? c.layer with
  | none => rfl
  | some cell =>
    dsimp only
    split <;> rfl

/-- One completion waits again, due at the moment of the stage, and every other job waits as
before. -/
structure Requeued [Scalar α] (c : Completion α) (s s' : Stage α κ σ) : Prop where
  layers : s'.layers = s.layers
  now : s'.now = s.now
  nextId : s'.nextId = s.nextId
  followed : s'.followed = s.followed
  desk : s'.desk = s.desk
  queue : ∃ before u after front v back,
    s.timers = before ++ u :: after ∧ s'.timers = front ++ v :: back ∧
    front ++ back = before ++ after ∧ u.job = .completion c ∧ v.job = .completion c ∧
    (v.due == s.now) = true ∧ ∀ w ∈ front ++ back, Timer.isCompletionOf c.id w = false

/-- Interrupting a completion that goes through is firing it. -/
theorem interrupt_of_ok [Scalar α] {s s' : Stage α κ σ} {u : Timer α κ} {c : Completion α} {n : Nat}
    (found : s.timers.find? (Timer.isCompletionOf c.id) = some u) (job : u.job = .completion c)
    (fired : (s.cancel c.id).fire c .interrupted = (s', .ok n)) :
    s.interrupt c.id = (s', true) := by
  obtain ⟨due, seq, _⟩ := u
  obtain rfl := job
  simp only [interrupt, found, fired]

/-- Interrupting a completion of a layer in use registers it again, due at once. -/
theorem interrupt_of_held [Scalar α] {s : Stage α κ σ} {u : Timer α κ} {c : Completion α}
    {hold : Hold} (found : s.timers.find? (Timer.isCompletionOf c.id) = some u)
    (job : u.job = .completion c) (inUse : s.hold? c.layer = some hold) (held : hold ≠ .free) :
    s.interrupt c.id = ((s.cancel c.id).enqueue 0.0 (.completion c), true) := by
  have hfire : (s.cancel c.id).fire c .interrupted = (s.cancel c.id, .error c) :=
    fire_of_held (s := s.cancel c.id) inUse held .interrupted
  obtain ⟨due, seq, _⟩ := u
  obtain rfl := job
  simp only [interrupt, found, hfire]

end Stage

/-! ## §3 Refusals on a course -/

namespace Course

open Stage

section Exact

variable [Scalar α] {desk : σ} {es : List (Event α κ)} {x : Scene α κ σ} {c : Completion α}

/-- What waits was registered. -/
theorem registered_of_waiting (h : Course (.opening desk) es x) (waiting : c ∈ x.stage.waiting) :
    .registered c ∈ es := by
  rw [← Event.mem_registeredIn, h.registeredIn_eq, Scene.unfinished]
  exact Multiset.mem_add.mpr (.inl (Multiset.mem_add.mpr (.inl waiting)))

/-- A completion that waits is found by its number, and no other has that number. -/
theorem exists_found (h : Course (.opening desk) es x) (waiting : c ∈ x.stage.waiting) :
    ∃ u, x.stage.timers.find? (Timer.isCompletionOf c.id) = some u ∧ u.job = .completion c ∧
      ∀ w ∈ (x.stage.cancel c.id).timers, Timer.isCompletionOf c.id w = false := by
  have hregistered := h.registered_of_waiting waiting
  rcases interrupt_cases x.stage c.id with ⟨hnone, -⟩ | ⟨u, d, hfind, hd, -, -⟩
  · obtain ⟨u, hu, hc⟩ := mem_waiting.mp waiting
    have hnot := List.find?_eq_none.mp hnone u hu
    simp [Timer.isCompletionOf, hc] at hnot
  · obtain rfl := h.eq_of_found hregistered hfind hd
    refine ⟨u, hfind, hd, fun w hw => ?_⟩
    -- All that waits has different numbers, and this one was taken out.
    have hnodup : (x.stage.waiting.map Completion.id).Nodup := by
      refine Multiset.nodup_of_le (Multiset.map_le_map ?_) h.nodup_registeredIn
      rw [h.registeredIn_eq, Scene.unfinished, add_assoc]
      exact Multiset.le_add_right _ _
    rw [waiting_of_find? hfind (Timer.completion?_eq_some_iff.mpr hd), Multiset.map_cons,
      Multiset.nodup_cons] at hnodup
    cases hjob : w.job with
    | completion e =>
      simp only [Timer.isCompletionOf, hjob, beq_eq_false_iff_ne]
      intro hid
      exact hnodup.1 (Multiset.mem_map.mpr ⟨e, mem_waiting.mpr ⟨w, hw, hjob⟩, hid⟩)
    | deferred d => simp only [Timer.isCompletionOf, hjob]
    | routine r => simp only [Timer.isCompletionOf, hjob]

variable {hold : Hold}

/-- After an interruption that was refused, another one ends the completion as if there had been
none before, whatever was done with the layers in between. -/
theorem interrupt_again (h : Course (.opening desk) es x) (waiting : c ∈ x.stage.waiting)
    (inUse : x.stage.hold? c.layer = some hold) (held : hold ≠ .free)
    {layers : List (Option (Cell α))}
    (released : ∀ hold ∈ (x.stage.withLayers layers).hold? c.layer, hold = .free) :
    ((x.stage.interrupt c.id).1.withLayers layers).interrupt c.id
      = ({ ((x.stage.withLayers layers).interrupt c.id).1 with seq := x.stage.seq + 1 }, true) := by
  obtain ⟨u, hfound, hjob, hothers⟩ := h.exists_found waiting
  have hself : Timer.isCompletionOf c.id
      (⟨x.stage.now + wait 0.0, x.stage.seq + 1, .completion c⟩ : Timer α κ) = true :=
    beq_self_eq_true c.id
  obtain ⟨n, hn⟩ := fire_of_released (s := (x.stage.cancel c.id).withLayers layers) released
    .interrupted
  have hfire := fire_withLayers (x.stage.cancel c.id) (x.stage.cancel c.id) layers c .interrupted
  rw [hn] at hfire
  -- Both times the completion is taken out of the queue, and the same jobs are left.
  have hfirst : (x.stage.withLayers layers).interrupt c.id = (_, true) :=
    interrupt_of_ok hfound hjob hfire
  have hcancel : (((x.stage.cancel c.id).enqueue 0.0 (.completion c)).withLayers layers).cancel c.id
      = ({ x.stage.cancel c.id with seq := x.stage.seq + 1 } : Stage α κ σ).withLayers layers :=
    congrArg (fun timers => ({ x.stage with
      layers := layers, seq := x.stage.seq + 1, timers := timers } : Stage α κ σ))
      (Timer.eraseP_insert hself hothers)
  have hagain := fire_withLayers (x.stage.cancel c.id)
    { x.stage.cancel c.id with seq := x.stage.seq + 1 } layers c .interrupted
  rw [← hcancel, hn] at hagain
  rw [interrupt_of_held hfound hjob inUse held, hfirst]
  exact interrupt_of_ok (Timer.find?_insert hself hothers) rfl hagain

end Exact

variable {desk : σ} {es : List (Event Float κ)} {x : Scene Float κ σ} {hold : Hold}

/-- An interruption that is refused lets the completion wait again. -/
theorem requeued_of_held {c : Completion Float} (h : Course (.opening desk) es x)
    (waiting : c ∈ x.stage.waiting) (inUse : x.stage.hold? c.layer = some hold)
    (held : hold ≠ .free) :
    (x.stage.interrupt c.id).2 = true ∧ Requeued c x.stage (x.stage.interrupt c.id).1 := by
  obtain ⟨u, hfound, hjob, hothers⟩ := h.exists_found waiting
  obtain ⟨before, after, hsplit, hcancel⟩ := exists_split_of_find? hfound
  obtain ⟨front, back, hrest, hinsert⟩ := Timer.exists_insert_append
    (⟨x.stage.now + wait 0.0, x.stage.seq + 1, .completion c⟩ : Timer Float κ)
    (x.stage.cancel c.id).timers
  have hdue : (x.stage.now + wait 0.0 == x.stage.now) = true := by
    rw [wait_zero]
    exact Double.add_zero_beq h.underway.clock
  rw [interrupt_of_held hfound hjob inUse held]
  refine ⟨rfl, rfl, rfl, rfl, rfl, rfl, before, u, after, front, _, back, hsplit, hinsert,
    hrest.symm.trans hcancel, hjob, rfl, hdue, fun w hw => hothers w ?_⟩
  rwa [hrest]

/-- Wherever a course from the opening scene leads, whatever its callers do, and whoever uses a layer
there: attaching to it, a motion without delay and a motion that was put off are refused, and cost no
more than the number of an animation, which a motion does not even draw where a writer uses the
layer.  A completion of the layer is handed back as it was at no cost.  If it waits, an interruption
takes notice of it, leaves all layers and all other jobs alone, and lets it wait again, due now.
When the layer is released, whatever has become of the layers until then, the completion goes
through, and firing or interrupting it comes to the same as without the earlier attempt. -/
theorem refused_of_held (h : Course (.opening desk) es x) {id : LayerId}
    (inUse : x.stage.hold? id = some hold) (held : hold ≠ .free) :
    (∀ now a, (x.stage.attach now id a).2 = none ∧ Untouched x.stage (x.stage.attach now id a).1) ∧
    (∀ a, (x.stage.animate id a).2 = none ∧ Untouched x.stage (x.stage.animate id a).1) ∧
    (∀ intents o, ¬ 0.0 < o.repaired.delay →
      (x.stage.motion id intents o).2 = none ∧ Untouched x.stage (x.stage.motion id intents o).1 ∧
      (x.stage.motion id intents o).1 = if hold = .exclusive then x.stage else x.stage.drawId) ∧
    (∀ d : Deferred Float, d.layer = id →
      (x.stage.startDeferred d).2 = none ∧ Untouched x.stage (x.stage.startDeferred d).1) ∧
    (∀ c ending, c.layer = id → x.stage.fire c ending = (x.stage, .error c)) ∧
    (∀ c ∈ x.stage.waiting, c.layer = id →
      (x.stage.interrupt c.id).2 = true ∧ Requeued c x.stage (x.stage.interrupt c.id).1) ∧
    ∀ layers, (∀ hold ∈ (x.stage.withLayers layers).hold? id, hold = .free) →
      ∀ c, c.layer = id →
        (∀ ending, ∃ n, ((x.stage.withLayers layers).fire c ending).2 = .ok n) ∧
        (∀ first ending, ((x.stage.fire c first).1.withLayers layers).fire c ending
          = (x.stage.withLayers layers).fire c ending) ∧
        (c ∈ x.stage.waiting →
          (∀ ending,
            (((x.stage.interrupt c.id).1.withLayers layers).fire c ending).2
              = ((x.stage.withLayers layers).fire c ending).2 ∧
            (((x.stage.interrupt c.id).1.withLayers layers).fire c ending).1.layers
              = ((x.stage.withLayers layers).fire c ending).1.layers) ∧
          ((x.stage.interrupt c.id).1.withLayers layers).interrupt c.id
            = ({ ((x.stage.withLayers layers).interrupt c.id).1 with seq := x.stage.seq + 1 },
              true)) := by
  -- A writer meets its refusal at the one place where a layer is asked for; what is left to show is
  -- what it had drawn or taken by then.
  refine ⟨fun now a => ?_, fun a => ?_, fun intents o undelayed => ?_, fun d hd => ?_,
    fun c ending hc => ?_, fun c waiting hc => ?_, fun layers released c hc => ⟨fun ending => ?_,
      fun first ending => ?_, fun waiting => ⟨fun ending => ?_, ?_⟩⟩⟩
  · rw [attach_of_held inUse held]
    exact ⟨rfl, untouched_drawId x.stage⟩
  · rw [animate_of_held inUse held]
    exact ⟨rfl, untouched_drawId x.stage⟩
  · rw [motion_of_held inUse held undelayed]
    exact ⟨rfl, untouched_ite x.stage _, rfl⟩
  · subst hd
    rw [startDeferred, perform_of_held inUse held]
    exact ⟨rfl, untouched_ite x.stage _⟩
  · subst hc
    exact fire_of_held inUse held ending
  · subst hc
    exact h.requeued_of_held waiting inUse held
  · subst hc
    exact fire_of_released released ending
  · subst hc
    rw [fire_of_held inUse held first]
  · rw [fire_withLayers x.stage]
    exact ⟨rfl, rfl⟩
  · subst hc
    exact h.interrupt_again waiting inUse held released

/-- Another fade is refused while the layer is read, and the interruption of the first one lets it
wait again, to go through when the layer is released. -/
theorem refused_of_held_fadeInUse :
    fadeInUse.hold? 0 = some .shared ∧
    (fadeInUse.motion 0 [.fade 1.0] .standard).2 = none ∧
    Untouched fadeInUse (fadeInUse.motion 0 [.fade 1.0] .standard).1 ∧
    ∃ c ∈ fadeInUse.waiting, (fadeInUse.interrupt c.id).2 = true ∧
      Requeued c fadeInUse (fadeInUse.interrupt c.id).1 ∧
      ∃ n, ((fadeInUse.setHold 0 .free).fire c .finished).2 = .ok n := by
  have hread : fadeInUse.hold? 0 = some .shared := by decide +kernel
  have hfree : (fadeInUse.setHold 0 .free).hold? 0 = some .free := by decide +kernel
  have hundelayed : ¬ 0.0 < (Options.standard : Options Float).repaired.delay := by decide +kernel
  have hwaits : fadeInUse.completions.isEmpty = false := by decide +kernel
  have hlayer : ∀ c ∈ fadeInUse.completions, c.layer = 0 := by decide +kernel
  obtain ⟨es, hcourse, -⟩ := leads_fadeInUse []
  generalize fadeInUse = s at *
  obtain ⟨c, hc⟩ := List.exists_mem_of_ne_nil _ (List.isEmpty_eq_false_iff.mp hwaits)
  obtain ⟨-, -, hmotion, -, -, hinterrupt, hreleased⟩ :=
    refused_of_held (x := ⟨s, .caller, [], 0⟩) hcourse hread (by decide)
  obtain ⟨hnone, huntouched, -⟩ := hmotion [.fade 1.0] .standard hundelayed
  obtain ⟨htrue, hrequeued⟩ := hinterrupt c (Multiset.mem_coe.mpr hc) (hlayer c hc)
  have hthrough := (hreleased (s.setHold 0 .free).layers
    (fun hold hhold => Option.some.inj (hhold.symm.trans hfree)) c (hlayer c hc)).1 .finished
  exact ⟨hread, hnone, huntouched, c, Multiset.mem_coe.mpr hc, htrue, hrequeued, hthrough⟩

end Course

end LayerAnimation
