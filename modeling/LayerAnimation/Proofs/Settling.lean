import LayerAnimation.Proofs.Double.Clock
import LayerAnimation.Proofs.Operations

/-!
# What settling leaves behind

Settling moves the clock from job to job, and ends with the first advance that gets nothing done.
That can be too early: where a completion finds its layer in use, and other jobs wait for later
moments, the others are left as well.

- A job is *busy* if it is a completion whose layer is in use (`Job.Busy`); settling gets every
  other job done, unless it stops before.
- `Timer.lastDue` is the moment at which everything is over that comes of a job: a motion that is
  put off leaves a completion behind.
- `PlainStage.settle_busy_iff` is the exact condition: only busy jobs are left if and only if
  everything that comes of the other jobs is over when the first busy one falls due.

Both sides of that condition are kept by every advance that settling makes, job by job.
-/

namespace LayerAnimation

open LawfulTime

variable {α κ σ : Type}

/-! ## §1 Who uses a layer while the clock moves -/

namespace PlainStage

variable [Scalar α] (s : PlainStage α)

theorem hold?_startTimer (u : Timer α Empty) : (startTimer u s).1.hold? = s.hold? := by
  have hsync : (s.moveClock u.due).sync.hold? = s.hold? := Stage.hold?_sync (s.moveClock u.due)
  unfold startTimer Stage.start
  cases u.job with
  | completion c =>
    have hfire := Stage.hold?_fire (s.moveClock u.due).sync c .finished
    dsimp only
    split <;> next e =>
      rw [e] at hfire
      exact hfire.trans hsync
  | deferred d => exact (Stage.hold?_perform _ _ _ _ _).trans hsync
  | routine r => exact r.elim

theorem now_startTimer (u : Timer α Empty) : (startTimer u s).1.now = (s.moveClock u.due).now := by
  unfold startTimer Stage.start
  cases u.job with
  | completion c =>
    have hfire := Stage.now_fire (s.moveClock u.due).sync c .finished
    dsimp only
    split <;> next e =>
      rw [e] at hfire
      exact hfire
  | deferred d => exact Stage.now_perform _ _ _ _ _
  | routine r => exact r.elim

theorem hold?_of_popDue {s r : PlainStage α} {t : α} {u : Timer α Empty}
    (popped : s.popDue t = some (u, r)) : (startTimer u r).1.hold? = s.hold? := by
  obtain ⟨us, -, -, rfl⟩ := Stage.popDue_eq_some_iff.mp popped
  exact hold?_startTimer _ u

theorem hold?_runDue (t : α) : (s.runDue t).1.hold? = s.hold? := by
  induction s using runDue_induction t with
  | idle s h => rw [runDue_of_idle h]
  | next s u r h ih =>
    rw [runDue_of_popDue h]
    exact ih.trans (hold?_of_popDue h)

/-- Moving the clock changes nothing about who is using which layer. -/
theorem hold?_advanceTo (t : α) : (s.advanceTo t).1.hold? = s.hold? := by
  rw [advanceTo_eq]
  refine (Stage.hold?_sync _).trans ((Stage.hold?_requeue _ _).trans ?_)
  exact hold?_runDue s t

theorem hold?_settle : s.settle.1.hold? = s.hold? := by
  induction s using settle_induction with
  | empty s h => rw [settle_of_empty h]
  | stuck s u us h hdone =>
    rw [settle_of_stuck h hdone]
    exact hold?_advanceTo s u.due
  | done s u us h hdone ih =>
    rw [settle_of_done h hdone]
    exact ih.trans (hold?_advanceTo s u.due)

end PlainStage

/-! ## §2 Busy jobs and what comes of the others -/

/-- A completion whose layer is alive and in use. -/
def Job.Busy (holds : LayerId → Option Hold) (job : Job α κ) : Prop :=
  match job with
  | .completion c => ∃ h, holds c.layer = some h ∧ h ≠ .free
  | _ => False

instance (holds : LayerId → Option Hold) (job : Job α κ) : Decidable (job.Busy holds) :=
  match job with
  | .completion c =>
      match h : holds c.layer with
      | none => isFalse fun ⟨_, hhold, _⟩ => by rw [h] at hhold; cases hhold
      | some .free => isFalse fun ⟨_, hhold, hne⟩ => by rw [h] at hhold; cases hhold; exact hne rfl
      | some .shared => isTrue ⟨.shared, h, nofun⟩
      | some .exclusive => isTrue ⟨.exclusive, h, nofun⟩
  | .deferred _ => isFalse id
  | .routine _ => isFalse id

/-- Where no layer is in use no job is busy. -/
theorem Stage.Unheld.not_busy {s : Stage α κ σ} (h : s.Unheld) (job : Job α κ) :
    ¬ job.Busy s.hold? := by
  intro hbusy
  cases job with
  | completion c =>
    obtain ⟨hold, hhold, hne⟩ := hbusy
    rcases h c.layer with hnone | hfree
    · rw [hnone] at hhold
      cases hhold
    · rw [hfree] at hhold
      exact hne (Option.some.inj hhold).symm
  | deferred d => exact hbusy
  | routine r => exact hbusy

variable [Scalar α]

/-- The moment at which all is over that comes of a job which is started when it is due.  A motion
that was put off leaves a completion behind if its layer is free. -/
def Timer.lastDue (holds : LayerId → Option Hold) (u : Timer α κ) : α :=
  match u.job with
  | .deferred d => if holds d.layer = some .free then u.due + Stage.wait d.duration else u.due
  | _ => u.due

/-- All that comes of jobs which are not busy is over at a moment. -/
def OverBy (holds : LayerId → Option Hold) (us : List (Timer α κ)) (d : α) : Prop :=
  ∀ u ∈ us, ¬ u.job.Busy holds → u.lastDue holds ≤ d

/-- Some busy job is due at a moment. -/
def BlockedAt (holds : LayerId → Option Hold) (us : List (Timer α κ)) (d : α) : Prop :=
  ∃ u ∈ us, u.job.Busy holds ∧ u.due ≤ d

/-- All that comes of jobs which are not busy is over when the first busy job is due. -/
def Unobstructed (holds : LayerId → Option Hold) (us : List (Timer α κ)) : Prop :=
  ∀ d, BlockedAt holds us d → OverBy holds us d

namespace PlainStage

variable {s r : PlainStage α} {t d : α} {u : Timer α Empty}

omit [Scalar α] in
theorem fire_of_busy {c : Completion α} (ending : Ending)
    (h : (Job.completion c : Job α Empty).Busy s.hold?) : s.fire c ending = (s, .error c) := by
  obtain ⟨hold, hhold, hbusy⟩ := h
  exact Stage.fire_of_held hhold hbusy ending

omit [Scalar α] in
theorem fire_of_not_busy {c : Completion α} (ending : Ending)
    (h : ¬ (Job.completion c : Job α Empty).Busy s.hold?) : ∃ n, (s.fire c ending).2 = .ok n := by
  refine Stage.fire_of_released (fun hold hhold => ?_) ending
  by_contra hne
  exact h ⟨hold, hhold, hne⟩

/-- What a motion that is made at once registers: a completion, if its layer is free. -/
theorem timers_perform (id : LayerId) (intents : List (Intent α)) (duration : α)
    (easing : Easing α) :
    (s.perform id intents duration easing).1.timers = s.timers ∧ s.hold? id ≠ some .free ∨
    s.hold? id = some .free ∧ ∃ n c, c.layer = id ∧
      (s.perform id intents duration easing).1.timers
        = Timer.insert ⟨s.now + Stage.wait duration, n, .completion c⟩ s.timers := by
  cases hw : s.writable? id with
  | none =>
    refine .inl ⟨?_, Stage.writable?_eq_none_iff.mp hw⟩
    unfold Stage.perform
    cases s.readable? id with
    | none => rfl
    | some l =>
      dsimp only
      rw [Stage.animate_of_not_writable? hw]
      rfl
  | some l =>
    have hfree : s.hold? id = some .free := by
      by_contra hne
      rw [Stage.writable?_eq_none_iff.mpr hne] at hw
      cases hw
    refine .inr ⟨hfree, ?_⟩
    rw [Stage.perform_of_writable? hw, Stage.animate_of_writable? hw]
    unfold Stage.enqueueCompletion Stage.follow Stage.enqueue
    split <;> exact ⟨_, _, rfl, rfl⟩

/-! ## §3 One job -/

/-- What starting the job of a timer does to the others that wait, and how it ends. -/
inductive Started (holds : LayerId → Option Hold) (u : Timer α Empty) (us : List (Timer α Empty)) :
    List (Timer α Empty) → Outcome α Empty → Prop where
  /-- A busy completion is refused. -/
  | refused {c} (busy : u.job.Busy holds) (isCompletion : u.job = .completion c) :
      Started holds u us us (.refused c)
  /-- Nothing comes of the job. -/
  | ended {outcome} (free : ¬ u.job.Busy holds) (last : u.lastDue holds = u.due)
      (done : (Firing.mk u.due u.seq outcome).isDone) : Started holds u us us outcome
  /-- A completion comes of the job that is not busy. -/
  | followed {outcome n c} (free : ¬ u.job.Busy holds)
      (free' : ¬ (Job.completion c : Job α Empty).Busy holds)
      (done : (Firing.mk u.due u.seq outcome).isDone) :
      Started holds u us (Timer.insert ⟨u.lastDue holds, n, .completion c⟩ us) outcome

/-- Starting a due job refuses it, ends it, or leaves one completion of it behind. -/
theorem started_startTimer [LawfulTime α] (h : s.Timely) (popped : s.popDue t = some (u, r)) :
    Started s.hold? u r.timers (startTimer u r).1.timers (startTimer u r).2 := by
  -- The job meets the clock at its due time, and the holds and the other timers as they were.
  have hnow : (r.moveClock u.due).sync.now = u.due := h.now_of_popDue popped
  have hholds : (r.moveClock u.due).sync.hold? = s.hold? := by
    obtain ⟨us, -, -, rfl⟩ := Stage.popDue_eq_some_iff.mp popped
    exact Stage.hold?_sync _
  have htimers : (r.moveClock u.due).sync.timers = r.timers := rfl
  unfold startTimer
  generalize (r.moveClock u.due).sync = at_ at hnow hholds htimers ⊢
  obtain ⟨due, seq, job⟩ := u
  rw [← htimers]
  cases job with
  | completion c =>
    by_cases hbusy : (Job.completion c : Job α Empty).Busy s.hold?
    · rw [Stage.start, fire_of_busy .finished (by rwa [hholds])]
      exact .refused hbusy rfl
    · obtain ⟨n, hn⟩ := fire_of_not_busy (s := at_) (c := c) .finished (by rwa [hholds])
      have hfire := Stage.timers_fire at_ c .finished
      rw [Stage.start]
      split
      · next e =>
        rw [e] at hfire
        dsimp only at hfire ⊢
        rw [hfire]
        exact .ended hbusy rfl rfl
      · next e =>
        rw [e] at hn
        cases hn
  | deferred d =>
    have hfree : ¬ (Job.deferred d : Job α Empty).Busy s.hold? := id
    rw [Stage.start, Stage.startDeferred]
    rcases timers_perform (s := at_) d.layer d.intents d.duration d.easing with
      ⟨hsame, hheld⟩ | ⟨hlayer, n, c, hc, hnew⟩
    · rw [hsame]
      rw [hholds] at hheld
      exact .ended hfree (if_neg hheld) rfl
    · rw [hholds] at hlayer
      have hlast : Timer.lastDue s.hold? (⟨due, seq, .deferred d⟩ : Timer α Empty)
          = due + Stage.wait d.duration := if_pos hlayer
      rw [hnew, hnow, ← hlast]
      refine .followed hfree ?_ rfl
      rintro ⟨hold, hhold, hne⟩
      rw [hc, hlayer] at hhold
      cases hhold
      exact hne rfl
  | routine r => exact r.elim

section Started

variable {holds : LayerId → Option Hold} {us us' : List (Timer α Empty)}
  {outcome : Outcome α Empty}

/-- Starting a job of which something comes later keeps what is to come. -/
theorem Started.overBy_iff [LawfulTime α] (h : Started holds u us us' outcome) (le : u.due ≤ d) :
    OverBy holds us' d ↔ OverBy holds (u :: us) d := by
  unfold OverBy
  rw [List.forall_mem_cons]
  cases h with
  | refused busy isCompletion =>
    exact ⟨fun h => ⟨fun hfree => absurd busy hfree, h⟩, fun h => h.2⟩
  | ended free last done =>
    exact ⟨fun h => ⟨fun _ => last ▸ le, h⟩, fun h => h.2⟩
  | @followed _ n c free free' done =>
    -- The new completion is due when all that comes of the job is over.
    constructor
    · intro h
      refine ⟨fun _ => ?_, fun v hv => h v (Timer.mem_insert.mpr (.inr hv))⟩
      exact h ⟨u.lastDue holds, n, .completion c⟩ (Timer.mem_insert.mpr (.inl rfl)) free'
    · rintro ⟨hu, hus⟩ v hv hfree
      rcases Timer.mem_insert.mp hv with rfl | hv
      · exact hu free
      · exact hus v hv hfree

omit [Scalar α] in
theorem refused?_of_isDone {f : Firing α Empty} (h : f.isDone) : f.refused? = none :=
  Option.isNone_iff_eq_none.mp h

/-- Starting a job blocks nothing more, and a refusal tells of what was blocked. -/
theorem Started.blockedAt_iff (h : Started holds u us us' outcome) (le : u.due ≤ d) :
    BlockedAt holds (u :: us) d ↔
      BlockedAt holds us' d ∨ (Firing.mk u.due u.seq outcome).refused?.isSome := by
  simp only [BlockedAt, List.mem_cons, or_and_right, exists_or, exists_eq_left]
  cases h with
  | refused busy isCompletion => simp [Firing.refused?, busy, le]
  | ended free last done => simp [refused?_of_isDone done, free]
  | followed free free' done =>
    simp [refused?_of_isDone done, free, Timer.mem_insert, or_and_right, exists_or, free']

theorem Started.busy_of_not_done (h : Started holds u us us' outcome)
    (hdone : ¬ (Firing.mk u.due u.seq outcome).isDone) : u.job.Busy holds := by
  cases h with
  | refused busy isCompletion => exact busy
  | ended free last done => exact absurd done hdone
  | followed free free' done => exact absurd done hdone

theorem Started.busy_of_refused (h : Started holds u us us' outcome) {c : Completion α}
    (hc : (Firing.mk u.due u.seq outcome).refused? = some c) :
    (Job.completion c : Job α Empty).Busy holds := by
  cases h with
  | refused busy isCompletion =>
    cases hc
    rwa [isCompletion] at busy
  | ended free last done =>
    rw [refused?_of_isDone done] at hc
    cases hc
  | followed free free' done =>
    rw [refused?_of_isDone done] at hc
    cases hc

end Started

/-! ## §4 One advance -/

theorem mem_requeue {cs : List (Completion α)} {v : Timer α Empty}
    (hv : v ∈ (s.requeue cs).timers) : v ∈ s.timers ∨ ∃ c ∈ cs, v.job = .completion c := by
  induction cs generalizing s with
  | nil => exact .inl hv
  | cons c cs ih =>
    rcases ih (s := s.enqueue 0.0 (.completion c)) hv with hmem | ⟨c', hc', hjob⟩
    · rcases Timer.mem_insert.mp hmem with rfl | hmem
      · exact .inr ⟨c, List.mem_cons_self, rfl⟩
      · exact .inl hmem
    · exact .inr ⟨c', List.mem_cons_of_mem _ hc', hjob⟩

theorem overBy_requeue {holds : LayerId → Option Hold} {cs : List (Completion α)}
    (busy : ∀ c ∈ cs, (Job.completion c : Job α Empty).Busy holds) :
    OverBy holds (s.requeue cs).timers d ↔ OverBy holds s.timers d := by
  induction cs generalizing s with
  | nil => rfl
  | cons c cs ih =>
    have hbusy := busy c List.mem_cons_self
    refine (ih (s := s.enqueue 0.0 (.completion c))
      (fun c hc => busy c (List.mem_cons_of_mem _ hc))).trans ?_
    unfold OverBy
    constructor
    · exact fun h v hv => h v (Timer.mem_insert.mpr (.inr hv))
    · intro h v hv hfree
      rcases Timer.mem_insert.mp hv with rfl | hv
      · exact absurd hbusy hfree
      · exact h v hv hfree

section Advance

variable [LawfulTime α]

theorem timely_startTimer (h : s.Timely) (popped : s.popDue t = some (u, r)) :
    (startTimer u r).1.Timely := by
  have htake : Stage.Transitions s 0 [] (r.moveClock u.due).sync (↑u.completion?.toList + 0) :=
    (Stage.Transition.take popped).run.then .sync
  exact h.transitions (htake.trans (transitions_start (r.moveClock u.due).sync u 0))

theorem timely_runDue (h : s.Timely) (t : α) : (s.runDue t).1.Timely :=
  h.transitions (transitions_startDue t s.load s 0)

theorem timely_advanceTo (h : s.Timely) (t : α) : (s.advanceTo t).1.Timely :=
  h.transitions (transitions_advanceWithin (Nat.le_refl _) t 0)

/-- What is to come after the due jobs were started was to come before. -/
theorem overBy_runDue (h : s.Timely) (le : t ≤ d) :
    OverBy s.hold? (s.runDue t).1.timers d ↔ OverBy s.hold? s.timers d := by
  induction s using runDue_induction t with
  | idle s hidle => rw [runDue_of_idle hidle]
  | next s u r popped ih =>
    obtain ⟨us, hus, hdue, hr⟩ := Stage.popDue_eq_some_iff.mp popped
    have hstarted := started_startTimer h popped
    have hholds := hold?_of_popDue popped
    have hrest := ih (timely_startTimer h popped)
    rw [hholds] at hrest
    rw [runDue_of_popDue popped, hrest, hstarted.overBy_iff (le_trans hdue le), hus, hr]

/-- What was blocked is blocked still, or was refused. -/
theorem blockedAt_runDue (h : s.Timely) (le : t ≤ d) :
    BlockedAt s.hold? s.timers d ↔
      BlockedAt s.hold? (s.runDue t).1.timers d ∨
        (s.runDue t).2.filterMap Firing.refused? ≠ [] := by
  induction s using runDue_induction t with
  | idle s hidle => simp [runDue_of_idle hidle]
  | next s u r popped ih =>
    obtain ⟨us, hus, hdue, hr⟩ := Stage.popDue_eq_some_iff.mp popped
    have hstarted := started_startTimer h popped
    have hholds := hold?_of_popDue popped
    have hrest := ih (timely_startTimer h popped)
    have hfirst := hstarted.blockedAt_iff (le_trans hdue le)
    rw [hholds] at hrest
    have htimers : r.timers = us := by rw [hr]
    rw [htimers] at hfirst
    rw [runDue_of_popDue popped, hus, hfirst, hrest, List.filterMap_cons]
    cases (Firing.mk u.due u.seq (startTimer u r).2).refused? <;> simp

/-- Only busy completions are refused while due jobs are started. -/
theorem busy_of_mem_refused (h : s.Timely) {c : Completion α}
    (hc : c ∈ (s.runDue t).2.filterMap Firing.refused?) :
    (Job.completion c : Job α Empty).Busy s.hold? := by
  -- Jobs that are started change no holds, so the layers in use are the same for all of them.
  induction s using runDue_induction t with
  | idle s hidle =>
    rw [runDue_of_idle hidle] at hc
    cases hc
  | next s u r popped ih =>
    have hrest := ih (timely_startTimer h popped)
    rw [hold?_of_popDue popped] at hrest
    rw [runDue_of_popDue popped, List.filterMap_cons] at hc
    cases hfirst : (Firing.mk u.due u.seq (startTimer u r).2).refused? with
    | none =>
      rw [hfirst] at hc
      exact hrest hc
    | some d =>
      rw [hfirst] at hc
      rcases List.mem_cons.mp hc with rfl | hc
      · exact (started_startTimer h popped).busy_of_refused hfirst
      · exact hrest hc

theorem now_runDue_le (h : s.Timely) (le : s.now ≤ t) : (s.runDue t).1.now ≤ t := by
  induction s using runDue_induction t with
  | idle s hidle => rwa [runDue_of_idle hidle]
  | next s u r popped ih =>
    obtain ⟨us, -, hdue, -⟩ := Stage.popDue_eq_some_iff.mp popped
    rw [runDue_of_popDue popped]
    refine ih (timely_startTimer h popped) ?_
    rw [now_startTimer, h.now_of_popDue popped]
    exact hdue

/-- Completions that are registered again are due at once. -/
theorem blockedAt_requeue {holds : LayerId → Option Hold} {cs : List (Completion α)}
    (h : s.Timely) (le : s.now ≤ d)
    (busy : ∀ c ∈ cs, (Job.completion c : Job α Empty).Busy holds) :
    BlockedAt holds (s.requeue cs).timers d ↔ BlockedAt holds s.timers d ∨ cs ≠ [] := by
  induction cs generalizing s with
  | nil => simp [Stage.requeue]
  | cons c cs ih =>
    have hbusy := busy c List.mem_cons_self
    have hdue : s.now + Stage.wait (0.0 : α) ≤ d := by
      rw [Stage.wait_zero]
      exact le_trans (add_zero_le h.clock) le
    have hnow : BlockedAt holds (s.enqueue 0.0 (.completion c)).timers d :=
      ⟨_, Timer.mem_insert.mpr (.inl rfl), hbusy, hdue⟩
    have hrest := ih (s := s.enqueue 0.0 (.completion c)) (h.enqueue _ _) le
      (fun c hc => busy c (List.mem_cons_of_mem _ hc))
    -- The first one blocks already, whatever the others do.
    have hall : BlockedAt holds (s.requeue (c :: cs)).timers d := hrest.mpr (.inl hnow)
    simp [hall]

theorem now_advanceTo (h : s.Timely) (le : s.now ≤ t) : (s.advanceTo t).1.now = t := by
  have hnow : ((s.runDue t).1.moveClock t).now = t := larger_of_le (now_runDue_le h le)
  exact (Stage.now_requeue _ _).trans hnow

theorem overBy_advanceTo (h : s.Timely) (le : t ≤ d) :
    OverBy s.hold? (s.advanceTo t).1.timers d ↔ OverBy s.hold? s.timers d := by
  refine Iff.trans ?_ (overBy_runDue h le)
  exact overBy_requeue (s := (s.runDue t).1.moveClock t) (fun c hc => busy_of_mem_refused h hc)

/-- An advance blocks and frees nothing. -/
theorem blockedAt_advanceTo (h : s.Timely) (now : s.now ≤ t) (le : t ≤ d) :
    BlockedAt s.hold? (s.advanceTo t).1.timers d ↔ BlockedAt s.hold? s.timers d := by
  have hrun := timely_runDue h t
  -- Between the due jobs and the registrations the clock arrives.
  have hclock : ((s.runDue t).1.moveClock t).Timely :=
    hrun.moveClock (fun u hu ht => le_of_not_le (hrun.proper hu) ht
      (hrun.not_due (popDue_runDue s t) hu))
  have hnow : ((s.runDue t).1.moveClock t).now = t := larger_of_le (now_runDue_le h now)
  refine Iff.trans ?_ (blockedAt_runDue h le).symm
  have hle : ((s.runDue t).1.moveClock t).now ≤ d := by rwa [hnow]
  exact blockedAt_requeue hclock hle (fun c hc => busy_of_mem_refused h hc)

/-- An advance to the first due time obstructs nothing and clears nothing. -/
theorem unobstructed_advanceTo (h : s.Timely) {us : List (Timer α Empty)}
    (hus : s.timers = u :: us) :
    Unobstructed s.hold? (s.advanceTo u.due).1.timers ↔ Unobstructed s.hold? s.timers := by
  have hu : u ∈ s.timers := by rw [hus]; exact List.mem_cons_self
  have hnow := h.ahead u hu
  unfold Unobstructed
  refine forall_congr' (fun d => ?_)
  by_cases hle : u.due ≤ d
  · rw [overBy_advanceTo h hle, blockedAt_advanceTo h hnow hle]
  · -- Before the first due time nothing is blocked, neither before the advance nor after it.
    have hbefore : ¬ BlockedAt s.hold? s.timers d := by
      rintro ⟨b, hb, -, hdue⟩
      rw [hus] at hb
      have hsorted := h.sorted
      rw [hus, List.pairwise_cons] at hsorted
      rcases List.mem_cons.mp hb with rfl | hmem
      · exact hle hdue
      · exact hle (le_trans (hsorted.1 b hmem) hdue)
    have hafter : ¬ BlockedAt s.hold? (s.advanceTo u.due).1.timers d := by
      rintro ⟨b, hb, -, hdue⟩
      have hahead := (timely_advanceTo h u.due).ahead b hb
      rw [now_advanceTo h hnow] at hahead
      exact hle (le_trans hahead hdue)
    exact ⟨fun _ hblocked => absurd hblocked hbefore, fun _ hblocked => absurd hblocked hafter⟩

/-! ## §5 Settling -/

theorem not_due_of_mem_advanceTo (h : s.Timely) {v : Timer α Empty}
    (hv : v ∈ (s.advanceTo t).1.timers) (free : ¬ v.job.Busy s.hold?) : ¬ v.due ≤ t := by
  rcases mem_requeue (s := (s.runDue t).1.moveClock t) hv with hmem | ⟨c, hc, hjob⟩
  · exact (timely_runDue h t).not_due (popDue_runDue s t) hmem
  · rw [hjob] at free
    exact absurd (busy_of_mem_refused h hc) free

/-- A first job that an advance does not get done is busy. -/
theorem busy_of_doneCount_eq_zero (h : s.Timely) {us : List (Timer α Empty)}
    (hus : s.timers = u :: us) (hdone : doneCount (s.advanceTo u.due).2 = 0) :
    u.job.Busy s.hold? := by
  have hproper : u.due ≤ u.due := h.proper (by rw [hus]; exact List.mem_cons_self)
  have popped : s.popDue u.due = some (u, { s with timers := us }) :=
    Stage.popDue_eq_some_iff.mpr ⟨us, hus, hproper, rfl⟩
  -- Nothing was done, so in particular not the first job.
  rw [advanceTo_eq, runDue_of_popDue popped, doneCount, List.countP_eq_zero] at hdone
  exact (started_startTimer h popped).busy_of_not_done (hdone _ List.mem_cons_self)

/-- What comes of a job is over no earlier than the job is due. -/
theorem le_lastDue (h : s.Timely) (holds : LayerId → Option Hold) {v : Timer α Empty}
    (hv : v ∈ s.timers) : v.due ≤ v.lastDue holds := by
  have hdue := h.proper hv
  unfold Timer.lastDue
  split
  · split
    · exact le_add (le_trans h.clock (h.ahead v hv)) (Stage.isFinite_wait _) (Stage.zero_le_wait _)
    · exact hdue
  · exact hdue

/-- Settling leaves only busy jobs exactly if nothing stands in the way of the others. -/
theorem settle_busy_iff_unobstructed (h : s.Timely) :
    (∀ v ∈ s.settle.1.timers, v.job.Busy s.hold?) ↔ Unobstructed s.hold? s.timers := by
  induction s using settle_induction with
  | empty s hempty =>
    rw [settle_of_empty hempty, hempty]
    exact ⟨fun _ d ⟨b, hb, _⟩ => absurd hb List.not_mem_nil,
      fun _ v hv => absurd hv List.not_mem_nil⟩
  | stuck s u us hus hdone =>
    rw [settle_of_stuck hus hdone, ← unobstructed_advanceTo h hus]
    have hproper : u.due ≤ u.due := h.proper (by rw [hus]; exact List.mem_cons_self)
    have hahead : s.now ≤ u.due := h.ahead u (by rw [hus]; exact List.mem_cons_self)
    constructor
    · exact fun hbusy d _ v hv hfree => absurd (hbusy v hv) hfree
    · intro hclear v hv
      by_contra hfree
      -- The first job is refused, so all that comes of the others is over when it is due.
      have hblocked : BlockedAt s.hold? s.timers u.due :=
        ⟨u, by rw [hus]; exact List.mem_cons_self, busy_of_doneCount_eq_zero h hus hdone, hproper⟩
      have hover := hclear u.due ((blockedAt_advanceTo h hahead hproper).mpr hblocked)
      have hlast := le_lastDue (timely_advanceTo h u.due) s.hold? hv
      exact not_due_of_mem_advanceTo h hv hfree (le_trans hlast (hover v hv hfree))
  | done s u us hus hdone ih =>
    have hrest := ih (timely_advanceTo h u.due)
    rw [hold?_advanceTo] at hrest
    rw [settle_of_done hus hdone, hrest, unobstructed_advanceTo h hus]

theorem timely_ofLayers (layers : List (Layer α)) : (Stage.ofLayers layers).Timely where
  clock := zero_le_zero
  ahead := fun _ hu => absurd hu List.not_mem_nil
  sorted := .nil

/-- Time is in order on every stage to which a caller can come. -/
theorem Reachable.timely (h : Reachable s) : s.Timely := by
  induction h with
  | ofLayers layers => exact timely_ofLayers layers
  | operation op _ ih => exact ih.transitions (transitions_perform op _ 0)
  | addLayer l _ ih => exact ih.mono rfl (List.Sublist.refl _)
  | setLayer id l _ ih => exact ih.mono rfl (List.Sublist.refl _)
  | drawId _ ih => exact ih.mono rfl (List.Sublist.refl _)
  | enqueueCompletion after c _ ih => exact (ih.follow c.layer).enqueue after _

/-- Where no layer is in use settling leaves nothing. -/
theorem timers_settle_of_unheld (h : s.Timely) (unheld : s.Unheld) : s.settle.1.timers = [] := by
  have hclear : Unobstructed s.hold? s.timers :=
    fun _ ⟨v, _, hbusy, _⟩ => absurd hbusy (unheld.not_busy v.job)
  have hbusy := (settle_busy_iff_unobstructed h).mpr hclear
  rw [List.eq_nil_iff_forall_not_mem]
  exact fun v hv => unheld.not_busy v.job (hbusy v hv)

end Advance

/-- Settling leaves only completions whose layers are in use if and only if all that comes of the
other jobs is over when the first such completion falls due.  It leaves nothing at all if no layer
is in use. -/
theorem settle_busy_iff {s : PlainStage Float} (h : Reachable s) :
    ((∀ v ∈ s.settle.1.timers, v.job.Busy s.settle.1.hold?) ↔
      ∀ b ∈ s.timers, b.job.Busy s.hold? →
        ∀ u ∈ s.timers, ¬ u.job.Busy s.hold? → u.lastDue s.hold? ≤ b.due) ∧
    ((∀ id, s.hold? id = none ∨ s.hold? id = some .free) → s.settle.1.timers = []) := by
  have htimely := h.timely
  refine ⟨?_, timers_settle_of_unheld htimely⟩
  rw [hold?_settle, settle_busy_iff_unobstructed htimely]
  constructor
  · intro hclear b hb hbusy
    exact hclear b.due ⟨b, hb, hbusy, htimely.proper hb⟩
  · rintro hclear d ⟨b, hb, hbusy, hdue⟩ u hu hfree
    exact le_trans (hclear b hb hbusy u hu hfree) hdue

/-- A stage on which two layers fade, the first one in use. -/
def twoFades (first second : Float) : PlainStage Float :=
  (Stage.ofLayers [.ofValues .empty, .ofValues .empty]).run
    [.motion 0 [.fade 0.0] { Options.standard with duration := first },
      .motion 1 [.fade 0.0] { Options.standard with duration := second },
      .hold 0 .shared]

/-- A fade that is over before the other one is not obstructed. -/
theorem settle_busy_twoFades :
    Reachable (twoFades 0.3 0.15) ∧
      ∀ v ∈ (twoFades 0.3 0.15).settle.1.timers,
        v.job.Busy (twoFades 0.3 0.15).settle.1.hold? := by
  have hreachable : Reachable (twoFades 0.3 0.15) := (Reachable.ofLayers _).run _
  refine ⟨hreachable, (settle_busy_iff hreachable).1.mpr ?_⟩
  decide +kernel

/-- A fade that outlasts the other one is left on its layer, though no one uses that layer. -/
theorem settle_leaves_twoFades :
    Reachable (twoFades 0.15 0.3) ∧
      ¬ ∀ v ∈ (twoFades 0.15 0.3).settle.1.timers,
        v.job.Busy (twoFades 0.15 0.3).settle.1.hold? := by
  refine ⟨(Reachable.ofLayers _).run _, ?_⟩
  decide +kernel

end PlainStage

end LayerAnimation
