import LayerAnimation.Proofs.Sessions

/-!
# The order of starts

The clock of a stage only moves forward, and jobs start in the order of their due times and
registrations, whatever callers do between two starts: a task may register jobs that are due before
others that wait already, and it may call the clock, so that jobs start inside of it.

- `Stage.Underway` is the invariant: the queue is in order, and what was started comes before all
  that waits.  Every step keeps it (`Stage.Underway.next`), and so does every course.
- `Course.in_order` is what follows for doubles, not-a-numbers and infinities included.
- `Session.starts_ordered` says the same of the jobs of which the entries of a session tell.
-/

namespace LayerAnimation

open LawfulTime

variable {α κ σ : Type}

/-! ## §1 The invariant -/

namespace Stage

/-- The queue is in order, and what was started so far comes before all that waits and before all
that can still be registered. -/
structure Underway [Scalar α] (s : Stage α κ σ) (started : List (Timer α κ)) : Prop
    extends Queued s where
  past : ∀ v ∈ started, v.due ≤ s.now ∧ v.seq ≤ s.seq
  before : ∀ v ∈ started, ∀ u ∈ s.timers, v.Before u
  rising : started.Pairwise Timer.Before

variable [Scalar α] {s s' r : Stage α κ σ} {started : List (Timer α κ)}

theorem Underway.mono (h : s.Underway started) (now : s'.now = s.now) (seq : s'.seq = s.seq)
    (timers : s'.timers.Sublist s.timers) : s'.Underway started where
  toQueued := h.toQueued.mono now seq timers
  past := by
    rw [now, seq]
    exact h.past
  before := fun v hv u hu => h.before v hv u (timers.subset hu)
  rising := h.rising

theorem Underway.fire (h : s.Underway started) {c : Completion α} {ending : Ending}
    {result : Except (Completion α) Nat} (fired : s.fire c ending = (s', result)) :
    s'.Underway started := by
  obtain ⟨layers, rfl⟩ := exists_layers_of_fire fired
  exact h.mono rfl rfl (List.Sublist.refl _)

theorem Underway.sync (h : s.Underway started) : s.sync.Underway started :=
  h.mono rfl rfl (List.Sublist.refl _)

theorem Underway.attach (h : s.Underway started) (now : α) (id : LayerId) (a : Animation α) :
    (s.attach now id a).1.Underway started := by
  unfold Stage.attach
  split
  · exact h.mono rfl rfl (List.Sublist.refl _)
  · exact h.mono rfl rfl (List.Sublist.refl _)

variable [LawfulTime α]

/-- A job that is registered now comes behind all that was started. -/
theorem Underway.enqueue (h : s.Underway started) (after : α) (job : Job α κ) :
    (s.enqueue after job).Underway started where
  toQueued := h.toQueued.enqueue after job
  past := fun v hv => ⟨(h.past v hv).1, Nat.le_succ_of_le (h.past v hv).2⟩
  before := by
    intro v hv u hu
    rcases Timer.mem_insert.mp hu with rfl | hu
    · obtain ⟨hdue, hseq⟩ := h.past v hv
      exact .of_le (le_trans hdue (h.le_add_wait after)) (Nat.lt_succ_of_le hseq)
    · exact h.before v hv u hu
  rising := h.rising

theorem Underway.requeue (h : s.Underway started) (cs : List (Completion α)) :
    (s.requeue cs).Underway started := by
  induction cs generalizing s with
  | nil => exact h
  | cons c cs ih => exact ih (h.enqueue 0.0 (.completion c))

theorem Underway.arrive (h : s.Underway started) {t : α} (idle : s.popDue t = none) :
    (s.moveClock t).Underway started where
  toQueued := h.toQueued.arrive idle
  past := fun v hv => ⟨le_trans (h.past v hv).1 (le_larger h.le_now t), (h.past v hv).2⟩
  before := h.before
  rising := h.rising

/-- The job that is started next comes behind all that were started, and before the others. -/
theorem Underway.take (h : s.Underway started) {t : α} {u : Timer α κ}
    (popped : s.popDue t = some (u, r)) : (r.moveClock u.due).Underway (started ++ [u]) := by
  have hqueued := h.toQueued.take popped
  have hnow := h.now_of_popDue popped
  have hfirst := h.before_of_popDue popped
  have hu := mem_of_popDue popped
  obtain ⟨us, hus, -, rfl⟩ := popDue_eq_some_iff.mp popped
  refine ⟨hqueued, ?_, ?_, ?_⟩
  · -- The clock stands where the new one is due, which the others have not passed.
    intro v hv
    rw [hnow]
    rcases List.mem_append.mp hv with hv | hv
    · obtain ⟨hdue, hseq⟩ := h.past v hv
      exact ⟨le_trans hdue (h.ahead u hu), hseq⟩
    · obtain rfl := List.mem_singleton.mp hv
      exact ⟨h.proper hu, h.numbered v hu⟩
  · intro v hv w hw
    rcases List.mem_append.mp hv with hv | hv
    · exact h.before v hv w (by rw [hus]; exact List.mem_cons_of_mem u hw)
    · obtain rfl := List.mem_singleton.mp hv
      exact hfirst w hw
  · refine List.pairwise_append.mpr ⟨h.rising, List.pairwise_singleton _ u, fun v hv w hw => ?_⟩
    rw [List.mem_singleton.mp hw]
    exact h.before v hv u hu

/-! ## §2 Steps and courses -/

/-- Every step keeps the order of starts. -/
theorem Underway.next {x y : Scene α κ σ} {es : List (Event α κ)} (h : x.stage.Underway started)
    (step : Next x es y) : y.stage.Underway (started ++ es.filterMap Event.started?) := by
  cases step with
  | rearrange now nextId seq timers => simpa using h.mono now seq (by rw [timers])
  | put task => simpa using h.enqueue _ _
  | attach now id a => simpa using h.attach now id a
  | handOver after =>
    -- A clock is told of the layer before the job is registered.
    have hfollow := fun id => h.mono (now_follow _ id) (seq_follow _ id) (by rw [timers_follow])
    simpa [List.filterMap_cons, Event.started?, Stage.enqueueCompletion]
      using (hfollow _).enqueue after _
  | dispose | call | finish => simpa using h
  | @interrupt s _ _ _ id _ _ _ found isCompletion fired =>
    have hcancel : (s.cancel id).Underway started := h.mono rfl rfl List.eraseP_sublist
    simpa [List.filterMap_cons, Event.started?] using hcancel.fire fired
  | @suspend s _ _ _ id _ _ found isCompletion fired =>
    have hcancel : (s.cancel id).Underway started := h.mono rfl rfl List.eraseP_sublist
    simpa using (hcancel.fire fired).enqueue 0.0 _
  | task popped isTask =>
    simpa [List.filterMap_cons, Event.started?] using (h.take popped).sync
  | commit popped isCompletion fired | refuse popped isCompletion fired =>
    simpa [List.filterMap_cons, Event.started?] using (h.take popped).sync.fire fired
  | arrive idle => simpa using ((h.arrive idle).requeue _).sync

theorem Underway.course {x y : Scene α κ σ} {es : List (Event α κ)}
    (h : x.stage.Underway started) (run : Course x es y) :
    y.stage.Underway (started ++ es.filterMap Event.started?) := by
  induction run with
  | refl => simpa using h
  | tail _ last ih => simpa using ih.next last

theorem underway_opening (desk : σ) : (Scene.opening desk : Scene α κ σ).stage.Underway [] where
  clock := zero_le_zero
  ahead := fun _ hu => absurd hu List.not_mem_nil
  sorted := .nil
  ordered := .nil
  numbered := fun _ hu => absurd hu List.not_mem_nil
  distinct := List.nodup_nil
  past := fun _ hv => absurd hv List.not_mem_nil
  before := fun _ hv => absurd hv List.not_mem_nil
  rising := .nil

end Stage

namespace Course

variable [Scalar α] [LawfulTime α]

/-- On a course from the opening scene what is started comes before what waits. -/
theorem underway {desk : σ} {es : List (Event α κ)} {x : Scene α κ σ}
    (h : Course (.opening desk) es x) : x.stage.Underway (es.filterMap Event.started?) :=
  (Stage.underway_opening desk).course h

end Course

/-! ## §3 The clock -/

section Clock

variable [Scalar α] [LawfulTime α] {x y : Scene α κ σ} {es : List (Event α κ)}

/-- A job that is started meets the clock at its due time. -/
theorem Next.now_of_started (h : x.stage.Timely) (step : Next x es y) {u : Timer α κ}
    (started : .started u ∈ es) : y.stage.now = u.due := by
  cases step with
  | rearrange | put | attach | dispose | suspend | call | finish | arrive => cases started
  | handOver | interrupt => simp at started
  | task popped isTask =>
    obtain rfl : u = _ := by simpa using started
    exact h.now_of_popDue popped
  | commit popped isCompletion fired | refuse popped isCompletion fired =>
    obtain rfl : u = _ := by simpa using started
    obtain ⟨layers, rfl⟩ := Stage.exists_layers_of_fire fired
    exact h.now_of_popDue popped

/-- No step moves the clock back. -/
theorem Next.now_le (h : x.stage.Timely) (step : Next x es y) : x.stage.now ≤ y.stage.now := by
  -- Callers do not move the clock themselves; the clock does, to the job that it takes.
  have hsame : y.stage.now = x.stage.now → x.stage.now ≤ y.stage.now := fun e => by
    rw [e]
    exact h.le_now
  have htake {u r t} (popped : x.stage.popDue t = some (u, r)) :
      x.stage.now ≤ (r.moveClock u.due).now := by
    rw [h.now_of_popDue popped]
    exact h.ahead u (Stage.mem_of_popDue popped)
  cases step with
  | rearrange now nextId seq timers => exact hsame now
  | put | dispose | call | finish => exact hsame rfl
  | attach now id a =>
    apply hsame
    show (Stage.attach _ now id a).1.now = _
    unfold Stage.attach
    split <;> rfl
  | handOver after => exact hsame (Stage.now_follow _ _)
  | interrupt found isCompletion fired | suspend found isCompletion fired =>
    obtain ⟨layers, rfl⟩ := Stage.exists_layers_of_fire fired
    exact hsame rfl
  | task popped isTask => exact htake popped
  | commit popped isCompletion fired | refuse popped isCompletion fired =>
    obtain ⟨layers, rfl⟩ := Stage.exists_layers_of_fire fired
    exact htake popped
  | @arrive s t cs _ _ idle =>
    have hrequeue := Stage.now_requeue (s.moveClock t) cs
    show s.now ≤ ((s.moveClock t).requeue cs).now
    rw [hrequeue]
    exact le_larger h.le_now t

theorem Course.now_le {started : List (Timer α κ)} (h : x.stage.Underway started)
    (run : Course x es y) : x.stage.now ≤ y.stage.now := by
  induction run with
  | refl => exact h.le_now
  | tail run last ih => exact le_trans ih (last.now_le (h.course run).toTimely)

end Clock

/-! ## §4 Courses in doubles -/

/-- Wherever a course from the opening scene leads, whatever its callers do: the clock is no
not-a-number and never moves back; what waits is due at some moment from the clock on; a job that is
started meets the clock at its due time; and jobs are started strictly in the order of due times and
registrations.  An advance to a moment before the clock or to a not-a-number starts nothing and
leaves the clock and the queue alone. -/
theorem Course.in_order {desk : σ} {es : List (Event Float κ)} {x : Scene Float κ σ}
    (h : Course (.opening desk) es x) :
    x.stage.now.isNaN = false ∧
    (∀ ds y, Course x ds y → x.stage.now ≤ y.stage.now) ∧
    (∀ u ∈ x.stage.timers, u.due.isNaN = false ∧ x.stage.now ≤ u.due) ∧
    (∀ ds y u, Next x ds y → .started u ∈ ds → y.stage.now = u.due) ∧
    (es.filterMap Event.started?).Pairwise Timer.Before ∧
    ∀ t, ¬ x.stage.now ≤ t →
      ∀ (ρ : Type) (exec : κ → Stage Float κ σ → Stage Float κ σ × ρ) (fuel : Nat),
        (Stage.advanceWithin exec fuel t x.stage).2 = [] ∧
        (Stage.advanceWithin exec fuel t x.stage).1.now = x.stage.now ∧
        (Stage.advanceWithin exec fuel t x.stage).1.timers = x.stage.timers := by
  -- All parts are read off the invariant of courses.
  have hunderway := h.underway
  refine ⟨Double.isNaN_eq_false_iff.mpr hunderway.le_now, fun ds y run => run.now_le hunderway,
    fun u hu => ⟨Double.isNaN_eq_false_iff.mpr (hunderway.proper hu), hunderway.ahead u hu⟩,
    fun ds y u step started => step.now_of_started hunderway.toTimely started, hunderway.rising,
    fun t not_le ρ exec fuel => ?_⟩
  rw [hunderway.advanceWithin_of_not_le not_le exec fuel]
  exact ⟨rfl, rfl, rfl⟩

namespace Session

/-- A session in which a task registers another one and calls the clock while a third one waits. -/
def nestedClock : List (Command Float) :=
  [.later 0.1 (.text "outer") [.later 0.0 (.text "inner") [], .advanceTo 0.3],
    .later 0.2 (.text "other") [], .advance 0.15]

/-- All three of them start, in that order, the last two during the first one. -/
theorem in_order_nestedClock :
    ∃ es : List (Event Float (Routine Float)),
      Course (.opening ⟨[], 0.0, []⟩) es
        ⟨after nestedClock, .caller, [], (after nestedClock).desk.kept⟩ ∧
      (Event.starts es).map Prod.snd = [1, 3, 2] ∧
      (es.filterMap Event.started?).Pairwise Timer.Before ∧
      (Stage.advanceWithin (runRoutine (perform 0)) 0 (0.0 / 0.0) (after nestedClock)).2 = [] := by
  obtain ⟨es, hcourse, hstarts⟩ := course_run nestedClock
  have hnumbers : (Entry.startsOfAll (run nestedClock)).map Prod.snd = [1, 3, 2] := by
    decide +kernel
  have hnan : ¬ (after nestedClock).now ≤ 0.0 / 0.0 := by decide +kernel
  generalize after nestedClock = s at hcourse hnan
  obtain ⟨-, -, -, -, hrising, hback⟩ := hcourse.in_order
  exact ⟨es, hcourse, by rw [hstarts, hnumbers], hrising, (hback _ hnan _ _ _).1⟩

/-- The jobs of which the entries of a session tell are started strictly in order. -/
theorem starts_ordered (commands : List (Command Float)) :
    (Entry.startsOfAll (run commands)).Pairwise fun u v =>
      u.1 < v.1 ∨ u.1 ≤ v.1 ∧ u.2 < v.2 := by
  obtain ⟨es, hcourse, hstarts⟩ := course_run commands
  rw [← hstarts, Event.starts, List.pairwise_map]
  exact hcourse.underway.rising

end Session

end LayerAnimation
