import LayerAnimation.Proofs.Queue

/-!
# What an advance gets done

An advance takes the first job of the queue again and again, and the jobs that it starts register
others, which may fall due before it arrives.  All the same nothing is lost, started twice or changed
on the way.

- `PlainStage.registered` lists the jobs that are registered while due jobs start.
- `PlainStage.Effect` is what the start of a job does: a completion is committed on its layer, and
  the values that this writes are counted; a motion that was put off is made.  `PlainStage.Starts` is a
  row of such starts, each on the stage that the one before it has left.
- `Answered` says which jobs are done: a busy completion is refused, every other job is done.
- `PlainStage.runDue_effect` splits the jobs that waited or were registered: those that are due were
  started, each once and in order, and the others wait as they did.
- `PlainStage.IsOverdue` is what a refused completion is left with.  It is kept by every operation
  that cannot end the animation (`PlainStage.IsOverdue.perform`).
- `PlainStage.advanceTo_effect` adds what happens on arrival: what was refused waits again in the
  same order, due at once, and is done by the first advance that finds its layer free.
-/

namespace LayerAnimation

open LawfulTime

variable {α κ σ : Type}

namespace PlainStage

variable [Scalar α] {s r : PlainStage α} {t : α} {u v : Timer α Empty}

/-! ## §1 What one job registers -/

/-- A job that is started registers nothing, or one job with the next number that is due no
earlier. -/
theorem startTimer_cases [LawfulTime α] (h : s.Timely) (popped : s.popDue t = some (u, r)) :
    (startTimer u r).1.timers = r.timers ∧ (startTimer u r).1.seq = r.seq ∨
    ∃ v : Timer α Empty, u.due ≤ v.due ∧ v.seq = r.seq + 1 ∧
      (startTimer u r).1.timers = v.insert r.timers ∧ (startTimer u r).1.seq = r.seq + 1 := by
  have hnow : (r.moveClock u.due).sync.now = u.due := h.now_of_popDue popped
  have htake := (h.take popped).le_add_wait
  unfold startTimer Stage.start
  cases u.job with
  | completion c =>
    -- Fired or refused, a completion touches layers only.
    refine .inl ?_
    dsimp only
    split <;> next e =>
      obtain ⟨layers, rfl⟩ := Stage.exists_layers_of_fire e
      exact ⟨rfl, rfl⟩
  | deferred d =>
    rcases Stage.enqueued_perform (r.moveClock u.due).sync d.layer d.intents d.duration d.easing with
      hsame | ⟨after, c, htimers, hseq⟩
    · exact .inl hsame
    · refine .inr ⟨_, ?_, rfl, htimers, hseq⟩
      have hle := htake after
      rw [show (r.moveClock u.due).now = u.due from hnow] at hle
      rw [hnow]
      exact hle
  | routine r => exact r.elim

/-! ## §2 Jobs that are registered on the way -/

/-- The jobs that the start of a job registers. -/
def registeredBy (u : Timer α Empty) (r : PlainStage α) : List (Timer α Empty) :=
  (startTimer u r).1.timers.filter fun v => r.seq < v.seq

/-- The jobs that are registered while the jobs due up to a moment start. -/
def registered (s : PlainStage α) (t : α) : List (Timer α Empty) :=
  match _popped : s.popDue t with
  | none => []
  | some (u, r) => registeredBy u r ++ registered (startTimer u r).1 t
termination_by s.load
decreasing_by exact load_startTimer _popped

theorem registered_of_idle (h : s.popDue t = none) : s.registered t = [] := by
  rw [registered]
  split
  · rfl
  · next e => rw [h] at e; cases e

theorem registered_of_popDue (h : s.popDue t = some (u, r)) :
    s.registered t = registeredBy u r ++ (startTimer u r).1.registered t := by
  rw [registered]
  split
  · next e => rw [h] at e; cases e
  · next e =>
    rw [h] at e
    cases e
    rfl

variable [LawfulTime α]

theorem queued_startTimer (h : s.Queued) (popped : s.popDue t = some (u, r)) :
    (startTimer u r).1.Queued := by
  have htake : Stage.Transitions s 0 [] (r.moveClock u.due).sync (↑u.completion?.toList + 0) :=
    (Stage.Transition.take popped).run.then .sync
  exact h.transitions (htake.trans (transitions_start (r.moveClock u.due).sync u 0))

theorem seq_le_startTimer (h : s.Timely) (popped : s.popDue t = some (u, r)) :
    s.seq ≤ (startTimer u r).1.seq := by
  have hcases := startTimer_cases h popped
  obtain ⟨us, -, -, rfl⟩ := Stage.popDue_eq_some_iff.mp popped
  rcases hcases with ⟨-, hseq⟩ | ⟨-, -, -, -, hseq⟩
  · exact Nat.le_of_eq hseq.symm
  · rw [hseq]
    exact Nat.le_succ _

/-- After a job was started the others wait, and those that it registered. -/
theorem perm_startTimer (h : s.Queued) (popped : s.popDue t = some (u, r)) :
    (startTimer u r).1.timers.Perm (r.timers ++ registeredBy u r) := by
  have hcases := startTimer_cases h.toTimely popped
  obtain ⟨us, hus, -, rfl⟩ := Stage.popDue_eq_some_iff.mp popped
  -- The numbers of the others are not new.
  have hold : us.filter (fun v => s.seq < v.seq) = [] := by
    refine List.filter_eq_nil_iff.mpr fun v hv => ?_
    have hle := h.numbered v (by rw [hus]; exact List.mem_cons_of_mem u hv)
    simpa using hle
  unfold registeredBy
  rcases hcases with ⟨htimers, -⟩ | ⟨v, -, hseq, htimers, -⟩
  · rw [htimers, hold, List.append_nil]
  · have hinsert := Timer.perm_insert v us
    have hnew : ((v.insert us).filter fun v => s.seq < v.seq).Perm [v] := by
      refine (hinsert.filter _).trans ?_
      rw [List.filter_cons, hold, hseq]
      simp
    rw [htimers]
    exact (hinsert.trans (List.perm_append_singleton v us).symm).trans (hnew.symm.append_left us)

/-- What is registered on the way has new numbers and is due from the clock on. -/
theorem of_mem_registered (h : s.Queued) (hv : v ∈ s.registered t) :
    s.now ≤ v.due ∧ s.seq < v.seq := by
  induction s using runDue_induction t with
  | idle s hidle =>
    rw [registered_of_idle hidle] at hv
    cases hv
  | next s u r popped ih =>
    have hqueued := queued_startTimer h popped
    have hnow : s.now ≤ (startTimer u r).1.now := by
      rw [now_startTimer, h.now_of_popDue popped]
      exact h.ahead u (Stage.mem_of_popDue popped)
    have hseq := seq_le_startTimer h.toTimely popped
    -- The first job has registered it, or one that started later and under higher numbers.
    rw [registered_of_popDue popped] at hv
    rcases List.mem_append.mp hv with hv | hv
    · obtain ⟨hmem, hnew⟩ := List.mem_filter.mp hv
      obtain ⟨us, -, -, rfl⟩ := Stage.popDue_eq_some_iff.mp popped
      exact ⟨le_trans hnow (hqueued.ahead v hmem), of_decide_eq_true hnew⟩
    · obtain ⟨hdue, hnew⟩ := ih hqueued hv
      exact ⟨le_trans hnow hdue, Nat.lt_of_le_of_lt hseq hnew⟩

/-- What waits when a job has started, or is registered later on, has waited before or is new. -/
theorem waited_or_new (h : s.Queued) (popped : s.popDue t = some (u, r))
    (hv : v ∈ (startTimer u r).1.timers ++ (startTimer u r).1.registered t) :
    v ∈ r.timers ∨ u.due ≤ v.due ∧ s.seq < v.seq := by
  have hcases := startTimer_cases h.toTimely popped
  rcases List.mem_append.mp hv with hv | hv
  · obtain ⟨us, -, -, rfl⟩ := Stage.popDue_eq_some_iff.mp popped
    rcases hcases with ⟨htimers, -⟩ | ⟨w, hdue, hnew, htimers, -⟩
    · rw [htimers] at hv
      exact .inl hv
    · rw [htimers] at hv
      rcases Timer.mem_insert.mp hv with rfl | hv
      · exact .inr ⟨hdue, by rw [hnew]; exact Nat.lt_succ_self _⟩
      · exact .inl hv
  · obtain ⟨hdue, hnew⟩ := of_mem_registered (queued_startTimer h popped) hv
    rw [now_startTimer, h.now_of_popDue popped] at hdue
    exact .inr ⟨hdue, Nat.lt_of_le_of_lt (seq_le_startTimer h.toTimely popped) hnew⟩

/-- The jobs that wait and those that are registered on the way, when the first one is started. -/
theorem perm_registered (h : s.Queued) (popped : s.popDue t = some (u, r)) :
    (s.timers ++ s.registered t).Perm
      (u :: ((startTimer u r).1.timers ++ (startTimer u r).1.registered t)) := by
  have hperm := perm_startTimer h popped
  rw [registered_of_popDue popped]
  obtain ⟨us, hus, -, rfl⟩ := Stage.popDue_eq_some_iff.mp popped
  rw [hus, List.cons_append, ← List.append_assoc]
  exact (hperm.symm.append_right _).cons u

/-- A job that starts comes before all that wait then or are registered later. -/
theorem before_of_popDue (h : s.Queued) (popped : s.popDue t = some (u, r))
    (hv : v ∈ (startTimer u r).1.timers ++ (startTimer u r).1.registered t) : u.Before v := by
  rcases waited_or_new h popped hv with hwaited | ⟨hdue, hnew⟩
  · exact h.before_of_popDue popped v hwaited
  · have hle := h.numbered u (Stage.mem_of_popDue popped)
    exact .of_le hdue (Nat.lt_of_le_of_lt hle hnew)

/-- The numbers of registrations tell the jobs apart that wait or are registered on the way. -/
theorem nodup_registered (h : s.Queued) (t : α) :
    ((s.timers ++ s.registered t).map Timer.seq).Nodup := by
  induction s using runDue_induction t with
  | idle s hidle =>
    rw [registered_of_idle hidle, List.append_nil]
    exact h.distinct
  | next s u r popped ih =>
    have hrest := ih (queued_startTimer h popped)
    have hperm := (perm_registered h popped).map Timer.seq
    rw [List.map_cons] at hperm
    refine hperm.nodup_iff.mpr (List.nodup_cons.mpr ⟨fun hmem => ?_, hrest⟩)
    -- The others have waited under other numbers, or were registered under new ones.
    obtain ⟨v, hv, hseq⟩ := List.mem_map.mp hmem
    rcases waited_or_new h popped hv with hwaited | ⟨-, hnew⟩
    · have hdistinct := h.distinct
      obtain ⟨us, hus, -, rfl⟩ := Stage.popDue_eq_some_iff.mp popped
      rw [hus, List.map_cons, List.nodup_cons] at hdistinct
      exact hdistinct.1 (hseq ▸ List.mem_map_of_mem hwaited)
    · have hle := h.numbered u (Stage.mem_of_popDue popped)
      omega

end PlainStage

/-! ## §3 What becomes of jobs -/

/-- What is reported of a job that is started while some layers are in use. -/
inductive Answered (holds : LayerId → Option Hold) : Timer α Empty → Firing α Empty → Prop where
  /-- A busy completion is refused. -/
  | refused {due seq c} (busy : (Job.completion c : Job α Empty).Busy holds) :
      Answered holds ⟨due, seq, .completion c⟩ ⟨due, seq, .refused c⟩
  /-- Any other completion writes some values. -/
  | completed {due seq c n} (free : ¬ (Job.completion c : Job α Empty).Busy holds) :
      Answered holds ⟨due, seq, .completion c⟩ ⟨due, seq, .completed c.id n⟩
  /-- A motion that was put off is made. -/
  | started {due seq d id} : Answered holds ⟨due, seq, .deferred d⟩ ⟨due, seq, .started id⟩

theorem Job.not_busy_deferred (holds : LayerId → Option Hold) (d : Deferred α) :
    ¬ (Job.deferred d : Job α κ).Busy holds :=
  id

section Answered

variable {holds : LayerId → Option Hold} {us : List (Timer α Empty)} {fs : List (Firing α Empty)}

/-- As many jobs are done as are not busy. -/
theorem doneCount_of_answered (h : List.Forall₂ (Answered holds) us fs) :
    doneCount fs = us.countP fun u => ¬ u.job.Busy holds := by
  induction h with
  | nil => rfl
  | cons first rest ih =>
    unfold doneCount at ih ⊢
    rw [List.countP_cons, List.countP_cons, ih]
    cases first with
    | refused busy => simp [Firing.isDone, Firing.refused?, busy]
    | completed free => simp [Firing.isDone, Firing.refused?, free]
    | started => simp [Firing.isDone, Firing.refused?, Job.not_busy_deferred]

/-- The busy jobs are refused, in their order. -/
theorem refused_of_answered (h : List.Forall₂ (Answered holds) us fs) :
    (fs.filterMap Firing.refused?).map Job.completion
      = (us.filter fun u => u.job.Busy holds).map Timer.job := by
  induction h with
  | nil => rfl
  | cons first rest ih =>
    cases first with
    | refused busy => simpa [Firing.refused?, busy] using ih
    | completed free =>
      rwa [List.filterMap_cons_none rfl, List.filter_cons_of_neg (by simpa using free)]
    | @started due seq d id =>
      have hfree := Job.not_busy_deferred (κ := Empty) holds d
      rwa [List.filterMap_cons_none rfl, List.filter_cons_of_neg (by simpa using hfree)]

theorem exists_answered (h : List.Forall₂ (Answered holds) us fs) {u : Timer α Empty}
    (hu : u ∈ us) : ∃ f ∈ fs, Answered holds u f := by
  induction h with
  | nil => cases hu
  | cons first rest ih =>
    rcases List.mem_cons.mp hu with rfl | hu
    · exact ⟨_, List.mem_cons_self, first⟩
    · obtain ⟨f, hf, hfu⟩ := ih hu
      exact ⟨f, List.mem_cons_of_mem _ hf, hfu⟩

end Answered

namespace PlainStage

variable [Scalar α] {s r : PlainStage α} {t : α} {u v : Timer α Empty}

/-- What the start of a job does, from the stage on which it starts to the one that it leaves, and what
is reported of it. -/
inductive Effect (s : PlainStage α) :
    Timer α Empty → PlainStage α → Firing α Empty → Prop where
  /-- A busy completion is refused, and nothing else happens. -/
  | refused {due seq c} (busy : (Job.completion c : Job α Empty).Busy s.hold?) :
      Effect s ⟨due, seq, .completion c⟩ s ⟨due, seq, .refused c⟩
  /-- With its layer the tracks of an animation are gone, so nothing is written. -/
  | gone {due seq c} (gone : s.cell? c.layer = none) :
      Effect s ⟨due, seq, .completion c⟩ s ⟨due, seq, .completed c.id 0⟩
  /-- An animation is committed on its layer; the report tells how many values that wrote. -/
  | committed {due seq c cell} (alive : s.cell? c.layer = some cell) (free : cell.hold = .free) :
      Effect s ⟨due, seq, .completion c⟩
        (s.setLayer c.layer (cell.layer.commit c.id c.animation).1)
        ⟨due, seq, .completed c.id (cell.layer.commit c.id c.animation).2⟩
  /-- A motion is made; the report tells which animation it has attached, if any. -/
  | made {due seq d} :
      Effect s ⟨due, seq, .deferred d⟩ (s.perform d.layer d.intents d.duration d.easing).1
        ⟨due, seq, .started (s.perform d.layer d.intents d.duration d.easing).2⟩

/-- Jobs are started one after the other.  Each of them is the first one that is due when its turn
comes, and sees the clock at its own due time and the clocks of the followers with it. -/
inductive Starts (t : α) :
    PlainStage α → List (Timer α Empty) → List (Firing α Empty) → PlainStage α → Prop where
  | nil {s : PlainStage α} : Starts t s [] [] s
  | cons {s r s' s'' : PlainStage α} {u f us fs} (popped : s.popDue t = some (u, r))
      (effect : Effect (r.moveClock u.due).sync u s' f) (others : Starts t s' us fs s'') :
      Starts t s (u :: us) (f :: fs) s''

theorem hold?_taken (popped : s.popDue t = some (u, r)) :
    (r.moveClock u.due).sync.hold? = s.hold? := by
  obtain ⟨us, -, -, rfl⟩ := Stage.popDue_eq_some_iff.mp popped
  exact Stage.hold?_sync _

/-- Starting a job has its effect. -/
theorem effect_start (s : PlainStage α) (u : Timer α Empty) :
    Effect s u (Stage.start exec u.job s).1 ⟨u.due, u.seq, (Stage.start exec u.job s).2⟩ := by
  obtain ⟨due, seq, job⟩ := u
  cases job with
  | completion c =>
    cases hcell : s.cell? c.layer with
    | none => simpa only [Stage.start, Stage.fire, hcell] using .gone hcell
    | some cell =>
      by_cases hfree : cell.hold = .free
      · simpa only [Stage.start, Stage.fire, hcell, Hold.admitsWriter_iff.mpr hfree, ↓reduceIte]
          using .committed hcell hfree
      · have hbusy : (Job.completion c : Job α Empty).Busy s.hold? :=
          ⟨cell.hold, by rw [Stage.hold?, hcell]; rfl, hfree⟩
        rw [Stage.start, fire_of_busy .finished hbusy]
        exact .refused hbusy
  | deferred d => exact .made
  | routine r => exact r.elim

/-- What a job does leaves all layers in the same hands. -/
theorem Effect.hold? {s' : PlainStage α} {f : Firing α Empty} (h : Effect s u s' f) :
    s'.hold? = s.hold? := by
  cases h with
  | refused | gone => rfl
  | committed => exact Stage.hold?_setLayer s _ _
  | made => exact Stage.hold?_perform s _ _ _ _

/-- A job is answered by the hands in which its layer is. -/
theorem Effect.answered {s' : PlainStage α} {f : Firing α Empty} (h : Effect s u s' f) :
    Answered s.hold? u f := by
  cases h with
  | refused busy => exact .refused busy
  | gone gone =>
    refine .completed fun hbusy => ?_
    obtain ⟨hold, hhold, -⟩ := hbusy
    rw [Stage.hold?, gone] at hhold
    cases hhold
  | committed alive free =>
    refine .completed fun hbusy => ?_
    obtain ⟨hold, hhold, hheld⟩ := hbusy
    rw [Stage.hold?, alive] at hhold
    exact hheld (Option.some.inj hhold ▸ free)
  | made => exact .started

/-- All jobs are answered by the hands in which the layers are at the beginning, since no start changes
them. -/
theorem Starts.answered {us : List (Timer α Empty)} {fs : List (Firing α Empty)}
    {s' : PlainStage α} (h : Starts t s us fs s') : List.Forall₂ (Answered s.hold?) us fs := by
  induction h with
  | nil => exact .nil
  | cons popped effect others ih =>
    have htaken := hold?_taken popped
    rw [effect.hold?, htaken] at ih
    have hfirst := effect.answered
    rw [htaken] at hfirst
    exact .cons hfirst ih

variable [LawfulTime α]

theorem queued_runDue (h : s.Queued) (t : α) : (s.runDue t).1.Queued :=
  h.transitions (transitions_startDue t s.load s 0)

/-! ## §4 The jobs that are started -/

/-- The jobs that wait and those that are registered on the way are started, each once and in
order, if they are due; the others are left as they are. -/
theorem runDue_effect (h : s.Queued) (t : α) :
    ∃ us, (s.timers ++ s.registered t).Perm (us ++ (s.runDue t).1.timers) ∧
      us.Pairwise Timer.Before ∧ (∀ u ∈ us, u.due ≤ t) ∧
      Starts t s us (s.runDue t).2 (s.runDue t).1 := by
  induction s using runDue_induction t with
  | idle s hidle =>
    rw [runDue_of_idle hidle, registered_of_idle hidle, List.append_nil]
    exact ⟨[], .refl _, .nil, fun _ hu => absurd hu List.not_mem_nil, .nil⟩
  | next s u r popped ih =>
    -- The others are started on the stage that the first one leaves.
    obtain ⟨us, hperm, hordered, hdue, hstarts⟩ := ih (queued_startTimer h popped)
    rw [runDue_of_popDue popped]
    refine ⟨u :: us, (perm_registered h popped).trans (hperm.cons u), ?_, ?_, ?_⟩
    · refine List.pairwise_cons.mpr ⟨fun v hv => before_of_popDue h popped ?_, hordered⟩
      exact hperm.mem_iff.mpr (List.mem_append_left _ hv)
    · obtain ⟨-, -, hle, -⟩ := Stage.popDue_eq_some_iff.mp popped
      exact List.forall_mem_cons.mpr ⟨hle, hdue⟩
    · exact .cons popped (effect_start _ u) hstarts

/-! ## §5 Arrival -/

/-- Where everything else is due later, completions that are registered again go in front, in their
order. -/
theorem timers_requeue {front back : List (Timer α Empty)} (hs : s.timers = front ++ back)
    (hfront : ∀ u ∈ front, u.due = s.now + Stage.wait 0.0)
    (hback : ∀ u ∈ back, s.now + Stage.wait 0.0 < u.due) (cs : List (Completion α)) :
    ∃ held, (s.requeue cs).timers = front ++ held ++ back ∧
      held.map Timer.job = cs.map Job.completion ∧
      ∀ u ∈ held, u.due = s.now + Stage.wait 0.0 := by
  induction cs generalizing s front with
  | nil =>
    exact ⟨[], by simpa [Stage.requeue] using hs, rfl, fun _ hu => absurd hu List.not_mem_nil⟩
  | cons c cs ih =>
    -- The completion goes behind those that are due at the same moment, and so extends the front.
    let new : Timer α Empty := ⟨s.now + Stage.wait 0.0, s.seq + 1, .completion c⟩
    have hnot : ∀ u ∈ front, ¬ new.due < u.due := by
      intro u hu hlt
      rw [hfront u hu] at hlt
      exact (lt_iff.mp hlt).2 (lt_iff.mp hlt).1
    have htimers : (s.enqueue 0.0 (.completion c)).timers = (front ++ [new]) ++ back := by
      rw [List.append_assoc, List.singleton_append]
      show new.insert s.timers = _
      rw [hs, Timer.insert_append hnot hback]
    have hfront' : ∀ u ∈ front ++ [new], u.due = s.now + Stage.wait 0.0 := by
      intro u hu
      rcases List.mem_append.mp hu with hu | hu
      · exact hfront u hu
      · rw [List.mem_singleton.mp hu]
    obtain ⟨held, hheld, hjobs, hdues⟩ :=
      ih (s := s.enqueue 0.0 (.completion c)) htimers hfront' hback
    refine ⟨new :: held, ?_, ?_, List.forall_mem_cons.mpr ⟨rfl, hdues⟩⟩
    · rw [show s.requeue (c :: cs) = (s.enqueue 0.0 (.completion c)).requeue cs from rfl, hheld]
      simp
    · rw [List.map_cons, List.map_cons, hjobs]

/-- The queue after an advance: what was refused, due at the moment of arrival, and behind it what
is due later. -/
theorem timers_advanceTo (h : s.Queued) (le : s.now ≤ t) :
    ∃ held, (s.advanceTo t).1.timers = held ++ (s.runDue t).1.timers ∧
      held.map Timer.job = ((s.runDue t).2.filterMap Firing.refused?).map Job.completion ∧
      ∀ u ∈ held, u.due = t + Stage.wait 0.0 := by
  have hrun := queued_runDue h t
  have hnow : ((s.runDue t).1.moveClock t).now = t := larger_of_le (now_runDue_le h.toTimely le)
  have hproper : t + Stage.wait 0.0 ≤ t + Stage.wait 0.0 :=
    le_right (le_add (le_trans h.clock le) (Stage.isFinite_wait _) (Stage.zero_le_wait _))
  -- What the run has left is not due, so it is due later than what is registered again.
  have hlater : ∀ u ∈ (s.runDue t).1.timers, t + Stage.wait (0.0 : α) < u.due := by
    intro u hu
    have hnot : ¬ u.due ≤ t + Stage.wait (0.0 : α) := by
      intro hle
      rw [Stage.wait_zero] at hle
      exact hrun.not_due (popDue_runDue s t) hu (le_trans hle (add_zero_le (le_trans h.clock le)))
    exact lt_iff.mpr ⟨le_of_not_le (hrun.proper hu) hproper hnot, hnot⟩
  have hfront : ((s.runDue t).1.moveClock t).timers = [] ++ (s.runDue t).1.timers := rfl
  have hrequeue := timers_requeue hfront (fun _ hu => absurd hu List.not_mem_nil)
    (by rwa [hnow]) ((s.runDue t).2.filterMap Firing.refused?)
  rw [hnow] at hrequeue
  exact hrequeue

/-- An advance to a moment starts the due jobs among those that wait and those that are registered
on the way, each once and in order.  What it refuses waits again in the same order, and what is not
due waits on. -/
theorem advanceTo_split (h : s.Queued) (le : s.now ≤ t) :
    ∃ due later held, (s.timers ++ s.registered t).Perm (due ++ later) ∧
      (∀ u ∈ due, u.due ≤ t) ∧ (∀ u ∈ later, t < u.due) ∧
      due.Pairwise Timer.Before ∧ Starts t s due (s.advanceTo t).2 (s.runDue t).1 ∧
      (s.advanceTo t).1.timers = held ++ later ∧
      held.map Timer.job = (due.filter fun u => u.job.Busy s.hold?).map Timer.job ∧
      ∀ u ∈ held, u.due = t + Stage.wait 0.0 := by
  obtain ⟨due, hperm, hordered, hdue, hstarts⟩ := runDue_effect h t
  obtain ⟨held, htimers, hjobs, hdues⟩ := timers_advanceTo h le
  have hrun := queued_runDue h t
  refine ⟨due, (s.runDue t).1.timers, held, hperm, hdue, fun u hu => ?_, hordered, hstarts,
    htimers, hjobs.trans (refused_of_answered hstarts.answered), hdues⟩
  have hnot := hrun.not_due (popDue_runDue s t) hu
  exact lt_iff.mpr ⟨le_of_not_le (hrun.proper hu) (le_right le) hnot, hnot⟩

/-! ## §6 Completions that are kept waiting -/

/-- A completion waits and is due already. -/
def IsOverdue (s : PlainStage α) (c : Completion α) : Prop :=
  ∃ u ∈ s.timers, u.job = .completion c ∧ u.due ≤ s.now

omit [LawfulTime α] in
theorem IsOverdue.mono {r : PlainStage α} {c : Completion α} (h : s.IsOverdue c)
    (now : r.now = s.now) (timers : ∀ u ∈ s.timers, u ∈ r.timers) : r.IsOverdue c := by
  obtain ⟨u, hu, hc, hdue⟩ := h
  exact ⟨u, timers u hu, hc, by rwa [now]⟩

omit [LawfulTime α] in
theorem IsOverdue.of_insert {r : PlainStage α} {c : Completion α} (h : s.IsOverdue c)
    (now : r.now = s.now) {v : Timer α Empty} (timers : r.timers = v.insert s.timers) :
    r.IsOverdue c :=
  h.mono now fun u hu => by
    rw [timers]
    exact Timer.mem_insert.mpr (.inr hu)

/-- An overdue completion is among the jobs that an advance starts. -/
theorem IsOverdue.exists_due {c : Completion α} (overdue : s.IsOverdue c) (le : s.now ≤ t)
    {due later : List (Timer α Empty)} (perm : (s.timers ++ s.registered t).Perm (due ++ later))
    (hlater : ∀ u ∈ later, t < u.due) : ∃ u ∈ due, u.job = .completion c := by
  obtain ⟨u, hu, hc, hdue⟩ := overdue
  rcases List.mem_append.mp (perm.mem_iff.mp (List.mem_append_left _ hu)) with hmem | hmem
  · exact ⟨u, hmem, hc⟩
  · exact absurd (le_trans hdue le) (lt_iff.mp (hlater u hmem)).2

/-- An overdue completion that is busy is overdue after an advance. -/
theorem IsOverdue.advanceTo (h : s.Queued) {c : Completion α} (overdue : s.IsOverdue c)
    (busy : (Job.completion c : Job α Empty).Busy s.hold?) (t : α) :
    (s.advanceTo t).1.IsOverdue c := by
  by_cases hle : s.now ≤ t
  · obtain ⟨due, later, held, hperm, -, hlater, -, -, htimers, hjobs, hdues⟩ := advanceTo_split h hle
    obtain ⟨u, hstarted, hc⟩ := overdue.exists_due hle hperm hlater
    -- It is refused, so it waits again.
    have hjob : Job.completion c ∈ held.map Timer.job := by
      rw [hjobs, ← hc]
      exact List.mem_map_of_mem (List.mem_filter.mpr ⟨hstarted, by simpa [hc] using busy⟩)
    obtain ⟨v, hv, hvc⟩ := List.mem_map.mp hjob
    refine ⟨v, by rw [htimers]; exact List.mem_append_left _ hv, hvc, ?_⟩
    rw [hdues v hv, now_advanceTo h.toTimely hle, Stage.wait_zero]
    exact add_zero_le (le_trans h.clock hle)
  · have hsame : s.advanceTo t = (s.sync, []) := h.advanceWithin_of_not_le hle exec s.load
    rw [hsame]
    exact overdue.mono rfl fun _ hu => hu

theorem queued_advanceTo (h : s.Queued) (t : α) : (s.advanceTo t).1.Queued :=
  h.transitions (transitions_advanceWithin (Nat.le_refl _) t 0)

theorem IsOverdue.settle (h : s.Queued) {c : Completion α} (overdue : s.IsOverdue c)
    (busy : (Job.completion c : Job α Empty).Busy s.hold?) : s.settle.1.IsOverdue c := by
  induction s using settle_induction with
  | empty s hempty => rwa [settle_of_empty hempty]
  | stuck s u us hus hdone =>
    rw [settle_of_stuck hus hdone]
    exact overdue.advanceTo h busy u.due
  | done s u us hus hdone ih =>
    rw [settle_of_done hus hdone]
    refine ih (queued_advanceTo h u.due) (overdue.advanceTo h busy u.due) ?_
    rwa [hold?_advanceTo]

/-- An overdue completion is overdue after an interruption, unless it is the one that ends. -/
theorem IsOverdue.interrupt {c : Completion α} (h : s.Queued) (overdue : s.IsOverdue c)
    {id : AnimationId} (spared : id = c.id → (Job.completion c : Job α Empty).Busy s.hold?) :
    IsOverdue (s.interrupt id).1 c := by
  have hnow := Stage.now_interrupt s id
  rcases Stage.interrupt_cases s id with ⟨-, hsame⟩ | ⟨v, d, hfind, hd, hresult, -⟩
  · rwa [hsame]
  obtain ⟨u, hu, hc, hdue⟩ := overdue
  by_cases hv : u = v
  · -- It is the completion that was found; its layer is in use, so it waits again.
    subst hv
    obtain rfl : d = c := Job.completion.inj (hd.symm.trans hc)
    have hid : id = d.id := by
      have hfound := List.find?_some hfind
      simp only [Timer.isCompletionOf, hc, beq_iff_eq] at hfound
      exact hfound.symm
    have hfire : (s.cancel id).fire d .interrupted = (s.cancel id, .error d) :=
      fire_of_busy .interrupted (spared hid)
    rcases hresult with ⟨n, hfired⟩ | ⟨-, hheld⟩
    · rw [hfire] at hfired
      exact absurd (congrArg Prod.snd hfired) nofun
    · refine ⟨_, by rw [hheld]; exact Timer.mem_insert.mpr (.inl rfl), rfl, ?_⟩
      rw [hnow]
      show s.now + Stage.wait 0.0 ≤ s.now
      rw [Stage.wait_zero]
      exact add_zero_le h.clock
  · have hcancel : u ∈ (s.cancel id).timers := by
      obtain ⟨before, after, hsplit, hrest⟩ := Stage.exists_split_of_find? hfind
      rw [hsplit] at hu
      rw [hrest]
      simpa only [List.mem_append, List.mem_cons, hv, false_or] using hu
    refine ⟨u, ?_, hc, by rwa [hnow]⟩
    rcases hresult with ⟨n, hfired⟩ | ⟨-, hheld⟩
    · obtain ⟨layers, hlayers⟩ := Stage.exists_layers_of_fire hfired
      rw [hlayers]
      exact hcancel
    · rw [hheld]
      exact Timer.mem_insert.mpr (.inr hcancel)

end PlainStage

/-- Whether an operation cannot end an animation whose completion waits on a stage: if it moves the
clock or interrupts the animation, the layer is in use. -/
def Operation.Withholds [Scalar α] (op : Operation α) (s : PlainStage α) (c : Completion α) : Prop :=
  match op with
  | .advance _ | .advanceTo _ | .settle => (Job.completion c : Job α Empty).Busy s.hold?
  | .interrupt id => id = c.id → (Job.completion c : Job α Empty).Busy s.hold?
  | _ => True

namespace PlainStage

variable [Scalar α]

/-- Whether none of some operations, one after the other, can end an animation. -/
def Withheld (c : Completion α) : PlainStage α → List (Operation α) → Prop
  | _, [] => True
  | s, op :: ops => op.Withholds s c ∧ Withheld c (op.perform s) ops

variable [LawfulTime α] {s : PlainStage α} {t : α}

/-- A completion that is overdue stays so under operations that cannot end its animation. -/
theorem IsOverdue.perform {c : Completion α} (h : s.Queued) (overdue : s.IsOverdue c)
    {op : Operation α} (withholds : op.Withholds s c) : (op.perform s).IsOverdue c := by
  -- A motion, a plan or an animation adds at most one job, and whatever the clock does before the
  -- layer is free only puts the completion back.
  cases op with
  | motion id intents options =>
    show IsOverdue (s.motion id intents options).1 c
    unfold Stage.motion
    split
    · exact overdue.of_insert rfl rfl
    · have hnow := Stage.now_perform s id intents options.repaired.duration options.repaired.easing
      rcases Stage.enqueued_perform s id intents options.repaired.duration options.repaired.easing
        with ⟨htimers, -⟩ | ⟨after, d, htimers, -⟩
      · exact overdue.mono hnow fun u hu => by rwa [htimers]
      · exact overdue.of_insert hnow htimers
  | schedule id intents options => exact overdue.of_insert rfl rfl
  | animate id a =>
    have hnow := Stage.now_animate s id a
    rcases Stage.enqueued_animate s id a with ⟨htimers, -⟩ | ⟨after, d, htimers, -⟩
    · exact overdue.mono hnow fun u hu => by
        show u ∈ (s.animate id a).1.timers
        rwa [htimers]
    · exact overdue.of_insert hnow htimers
  | advance dt => exact overdue.advanceTo h withholds _
  | advanceTo t => exact overdue.advanceTo h withholds t
  | settle => exact overdue.settle h withholds
  | interrupt id => exact overdue.interrupt h withholds
  | watch id =>
    exact overdue.mono (Stage.now_follow s id) fun u hu => by
      show u ∈ (s.follow id).timers
      rwa [Stage.timers_follow]
  | hold | drop => exact overdue.mono rfl fun _ hu => hu

theorem IsOverdue.run {c : Completion α} (h : s.Queued) (overdue : s.IsOverdue c)
    {ops : List (Operation α)} (withheld : Withheld c s ops) : (s.run ops).IsOverdue c := by
  induction ops generalizing s with
  | nil => exact overdue
  | cons op ops ih =>
    exact ih (h.transitions (transitions_perform op s 0)) (overdue.perform h withheld.1) withheld.2

/-- An overdue completion that is not busy is done by any advance. -/
theorem IsOverdue.completed {c : Completion α} (h : s.Queued) (overdue : s.IsOverdue c)
    (free : ¬ (Job.completion c : Job α Empty).Busy s.hold?) (le : s.now ≤ t) :
    ∃ f ∈ (s.advanceTo t).2, ∃ n, f.outcome = .completed c.id n := by
  obtain ⟨due, later, held, hperm, -, hlater, -, hstarts, -⟩ := advanceTo_split h le
  obtain ⟨u, hu, hc⟩ := overdue.exists_due le hperm hlater
  obtain ⟨f, hf, hfu⟩ := exists_answered hstarts.answered hu
  refine ⟨f, hf, ?_⟩
  cases hfu with
  | refused busy =>
    cases hc
    exact absurd busy free
  | completed =>
    cases hc
    exact ⟨_, rfl⟩
  | started => cases hc

/-! ## §7 The effect of an advance -/

theorem le_ahead {s : PlainStage Float} (h : s.Timely) (dt : Float) : s.now ≤ s.ahead dt :=
  Double.le_add_of_zero_le h.clock (zero_le_larger_zero dt)

/-- An advance to a moment from the clock on leads there.  The jobs that waited and those that are
registered on the way, no two of them under one number, are started in order if they are due, each
once: a completion whose layer is in use is refused and waits again, due at that moment and in the
same order; all others are done and counted, which means that they have their effect on the stage as it
is when they start.  What is due later waits as it did.

A completion that was kept waiting is done by the first advance after its layer is free, however
short. -/
theorem advanceTo_effect {s : PlainStage Float} (h : Reachable s) {t : Float} (le : s.now ≤ t) :
    (s.advanceTo t).1.now = t ∧
    ((s.timers ++ s.registered t).map Timer.seq).Nodup ∧
    (∃ due later held r,
      (s.timers ++ s.registered t).Perm (due ++ later) ∧
      (∀ u ∈ due, u.due ≤ t) ∧ (∀ u ∈ later, t < u.due) ∧
      due.Pairwise Timer.Before ∧
      Starts t s due (s.advanceTo t).2 r ∧
      (s.advanceTo t).1
        = ((r.moveClock t).requeue ((s.advanceTo t).2.filterMap Firing.refused?)).sync ∧
      List.Forall₂ (Answered s.hold?) due (s.advanceTo t).2 ∧
      doneCount (s.advanceTo t).2 = (due.countP fun u => ¬ u.job.Busy s.hold?) ∧
      (s.advanceTo t).1.timers = held ++ later ∧
      held.map Timer.job = (due.filter fun u => u.job.Busy s.hold?).map Timer.job ∧
      ∀ u ∈ held, (u.due == t) = true) ∧
    ∀ u ∈ (s.advanceTo t).1.timers, ∀ c, u.job = .completion c → u.due ≤ t →
      ∀ ops, Withheld c (s.advanceTo t).1 ops →
        ¬ (Job.completion c : Job Float Empty).Busy ((s.advanceTo t).1.run ops).hold? →
        (∀ t', ((s.advanceTo t).1.run ops).now ≤ t' →
          ∃ f ∈ (((s.advanceTo t).1.run ops).advanceTo t').2, ∃ n, f.outcome = .completed c.id n) ∧
        ∀ dt, ∃ f ∈ (((s.advanceTo t).1.run ops).advance dt).2,
          ∃ n, f.outcome = .completed c.id n := by
  have hqueued := h.queued
  have hnow := now_advanceTo hqueued.toTimely le
  refine ⟨hnow, nodup_registered hqueued t, ?_, ?_⟩
  · obtain ⟨due, later, held, hperm, hdue, hlater, hordered, hstarts, htimers, hjobs, hdues⟩ :=
      advanceTo_split hqueued le
    have hanswered := hstarts.answered
    refine ⟨due, later, held, _, hperm, hdue, hlater, hordered, hstarts,
      congrArg Prod.fst (advanceTo_eq s t), hanswered, doneCount_of_answered hanswered, htimers,
      hjobs, fun u hu => ?_⟩
    have hzero : (0.0 : Float) ≤ t := le_trans hqueued.clock le
    rw [hdues u hu, Stage.wait_zero]
    exact Double.add_zero_beq hzero
  · intro u hu c hc hdue ops withheld free
    -- What was due at the arrival is overdue from then on, and stays so until its layer is free.
    have hoverdue : (s.advanceTo t).1.IsOverdue c := ⟨u, hu, hc, by rwa [hnow]⟩
    have hlater := hoverdue.run (queued_advanceTo hqueued t) withheld
    have hreachable := (h.operation (.advanceTo t)).run ops
    refine ⟨fun t' le' => hlater.completed hreachable.queued free le', fun dt => ?_⟩
    exact hlater.completed hreachable.queued free (le_ahead hreachable.timely dt)

/-- A stage on which a layer in use fades, while two motions of another one are put off. -/
def heldFade : PlainStage Float :=
  (Stage.ofLayers [.ofValues .empty, .ofValues .empty]).run
    [.motion 0 [.fade 0.0] { Options.standard with duration := 0.1 },
      .motion 1 [.fade 0.0] { Options.standard with duration := 0.05, delay := 0.05 },
      .motion 1 [.fade 1.0] { Options.standard with delay := 2.0 },
      .hold 0 .shared]

/-- The fade is over in time, but is committed only when its layer is released. -/
theorem advanceTo_effect_heldFade :
    Reachable heldFade ∧ heldFade.now ≤ 0.2 ∧ (heldFade.advanceTo 0.2).1.now = 0.2 ∧
      ∃ f ∈ (((heldFade.advanceTo 0.2).1.run [.hold 0 .free]).advance 0.0).2,
        ∃ n, f.outcome = .completed 1 n := by
  have hreachable : Reachable heldFade := (Reachable.ofLayers _).run _
  have hle : heldFade.now ≤ 0.2 := by decide +kernel
  obtain ⟨hnow, -, -, hlater⟩ := advanceTo_effect hreachable hle
  refine ⟨hreachable, hle, hnow, ?_⟩
  have hwaits : (heldFade.advanceTo 0.2).1.timers.any (fun u => decide (u.due ≤ 0.2) &&
      u.completion?.any fun c => c.id == 1 && decide (¬ (Job.completion c :
        Job Float Empty).Busy ((heldFade.advanceTo 0.2).1.run [.hold 0 .free]).hold?)) = true := by
    decide +kernel
  obtain ⟨u, hu, hfade⟩ := List.any_eq_true.mp hwaits
  obtain ⟨hdue, hfade⟩ := Bool.and_eq_true_iff.mp hfade
  obtain ⟨c, hc, hfade⟩ := (Option.any_eq_true _ _).mp hfade
  simp only [Bool.and_eq_true, beq_iff_eq, decide_eq_true_eq] at hfade hdue
  obtain ⟨hid, hfree⟩ := hfade
  rw [← hid]
  exact (hlater u hu c (Timer.completion?_eq_some_iff.mp hc) hdue [.hold 0 .free]
    ⟨trivial, trivial⟩ hfree).2 0.0

end PlainStage

end LayerAnimation
