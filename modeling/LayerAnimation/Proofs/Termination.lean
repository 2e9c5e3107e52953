import LayerAnimation.Proofs.Operations

/-!
# The clock comes to rest

Moving the clock is a loop that runs while a job is due, and settling is a loop around that one.
Neither has a counter, and a job that starts can register another one that is due at once.  On a
stage without routines both come to their end nevertheless.

- `Stage.deferrals` are the motions that were put off.  Each of them counts twice, because it leaves
  a completion behind; a completion counts once, and a refused one is not done
  (`PlainStage.load_eq`).
- `PlainStage.Drains`, `PlainStage.Advances` and `PlainStage.Settles` are the loops as they are
  meant, without fuel.  A derivation of one of them is a run of the loop that ends.
- `PlainStage.clock_returns` says that both loops end, in exactly one way, and bounds the number of
  jobs that they get done.
-/

namespace LayerAnimation

variable {α κ σ : Type}

/-! ## §1 Motions that were put off -/

/-- The motion that waits under a timer, if its job is one that was put off. -/
def Timer.deferred? (u : Timer α κ) : Option (Deferred α) :=
  match u.job with
  | .deferred d => some d
  | _ => none

/-- The motions that were put off, in the order in which they will start. -/
def Stage.deferrals (s : Stage α κ σ) : List (Deferred α) :=
  s.timers.filterMap Timer.deferred?

namespace PlainStage

/-- The load of a stage without routines counts its completions once and its motions twice. -/
theorem load_eq (s : PlainStage α) :
    s.load = s.completions.length + 2 * s.deferrals.length := by
  unfold load Stage.load Stage.completions Stage.deferrals
  induction s.timers with
  | nil => rfl
  | cons u us ih =>
    -- Each kind of job adds its own share on both sides.
    obtain ⟨due, seq, job⟩ := u
    rw [Timer.loads, List.foldr_cons, ← Timer.loads, ih, List.filterMap_cons, List.filterMap_cons]
    cases job with
    | completion c =>
      simp only [Job.load, Timer.completion?, Timer.deferred?, List.length_cons]
      omega
    | deferred d =>
      simp only [Job.load, Timer.completion?, Timer.deferred?, List.length_cons]
      omega
    | routine r => exact r.elim

/-! ## §2 The loops -/

variable [Scalar α]

/-- The first due job is started, again and again, until no job is due. -/
inductive Drains (t : α) : PlainStage α → List (Firing α Empty) → PlainStage α → Prop where
  | idle {s} (idle : s.popDue t = none) : Drains t s [] s
  | next {s r s' u fs} (popped : s.popDue t = some (u, r))
      (rest : Drains t (startTimer u r).1 fs s') :
      Drains t s (⟨u.due, u.seq, (startTimer u r).2⟩ :: fs) s'

/-- What is due is started, and then the clock arrives and what was refused waits again. -/
inductive Advances (t : α) : PlainStage α → List (Firing α Empty) → PlainStage α → Prop where
  | arrive {s r fs} (drained : Drains t s fs r) :
      Advances t s fs ((r.moveClock t).requeue (fs.filterMap Firing.refused?)).sync

/-- The clock is moved to the first due time, again and again, until no job waits or none was
done. -/
inductive Settles : PlainStage α → List (Firing α Empty) → PlainStage α → Prop where
  | empty {s} (none : s.timers = []) : Settles s [] s
  | stuck {s s' u us fs} (first : s.timers = u :: us) (advance : Advances u.due s fs s')
      (idle : doneCount fs = 0) : Settles s fs s'
  | again {s r s' u us fs gs} (first : s.timers = u :: us) (advance : Advances u.due s fs r)
      (done : doneCount fs ≠ 0) (rest : Settles r gs s') : Settles s (fs ++ gs) s'

variable {s s' r : PlainStage α} {t : α} {fs gs : List (Firing α Empty)}

/-! ## §3 Each loop has one outcome -/

/-- Starting due jobs ends, and `runDue` is its outcome. -/
theorem drains_runDue (s : PlainStage α) (t : α) : Drains t s (s.runDue t).2 (s.runDue t).1 := by
  induction s using runDue_induction t with
  | idle s idle =>
    rw [runDue_of_idle idle]
    exact .idle idle
  | next s u r popped ih =>
    rw [runDue_of_popDue popped]
    exact .next popped ih

theorem Drains.eq_runDue (h : Drains t s fs s') : (s', fs) = s.runDue t := by
  induction h with
  | idle idle => rw [runDue_of_idle idle]
  | next popped _ ih => rw [runDue_of_popDue popped, ← ih]

theorem advances_iff : Advances t s fs s' ↔ (s', fs) = s.advanceTo t := by
  rw [advanceTo_eq]
  constructor
  · rintro ⟨drained⟩
    rw [← drained.eq_runDue]
  · intro h
    obtain ⟨rfl, rfl⟩ := Prod.mk.inj h
    exact .arrive (drains_runDue s t)

/-- Settling ends, and `settle` is its outcome. -/
theorem settles_settle (s : PlainStage α) : Settles s s.settle.2 s.settle.1 := by
  -- Every advance but the last takes away load, which is the induction along the rounds.
  induction s using settle_induction with
  | empty s none =>
    rw [settle_of_empty none]
    exact .empty none
  | stuck s u us first idle =>
    rw [settle_of_stuck first idle]
    exact .stuck first (advances_iff.mpr rfl) idle
  | done s u us first done ih =>
    rw [settle_of_done first done]
    exact .again first (advances_iff.mpr rfl) done ih

theorem Settles.eq_settle (h : Settles s fs s') : (s', fs) = s.settle := by
  induction h with
  | empty none => rw [settle_of_empty none]
  | stuck first advance idle =>
    have hrun := advances_iff.mp advance
    rw [settle_of_stuck first (by rwa [← hrun]), hrun]
  | again first advance done _ ih =>
    have hrun := advances_iff.mp advance
    rw [settle_of_done first (by rwa [← hrun]), ← hrun, ← ih]

/-! ## §4 How many jobs are done -/

/-- An advance starts no more jobs than the load of the stage, a refused completion counted once. -/
theorem length_advanceTo_le (s : PlainStage α) (t : α) :
    (s.advanceTo t).2.length ≤ s.load := by
  have hstarted : (s.runDue t).1.load + (s.runDue t).2.length ≤ s.load :=
    keepsCost.load_startDue t s.load s
  show (s.runDue t).2.length ≤ s.load
  omega

/-- Settling takes away at least as much load as it gets jobs done. -/
theorem load_settle (s : PlainStage α) : s.settle.1.load + doneCount s.settle.2 ≤ s.load := by
  induction s using settle_induction with
  | empty s none =>
    rw [settle_of_empty none]
    exact Nat.le_refl _
  | stuck s u us first idle =>
    rw [settle_of_stuck first idle]
    exact keepsCost.load_advanceWithin s.load u.due s
  | done s u us first done ih =>
    have hfirst : (s.advanceTo u.due).1.load + doneCount (s.advanceTo u.due).2 ≤ s.load :=
      keepsCost.load_advanceWithin s.load u.due s
    rw [settle_of_done first done]
    simp only [doneCount, List.countP_append] at ih hfirst ⊢
    omega

/-- On every stage whose tasks are motions that were put off, whatever their delays and durations
are and whoever uses the layers, both loops of the clock come to their end in exactly one way.  Where
completions and motions wait, an advance starts no more jobs than there are completions and twice
the motions, and what is done in an advance or in settling is no more than that, less what waits
afterwards. -/
theorem clock_returns (s : PlainStage α) (t : α) :
    (∀ fs s', Advances t s fs s' ↔ (s', fs) = s.advanceTo t) ∧
    (∀ fs s', Settles s fs s' ↔ (s', fs) = s.settle) ∧
    (s.advanceTo t).2.length ≤ s.completions.length + 2 * s.deferrals.length ∧
    ((s.advanceTo t).1.completions.length + 2 * (s.advanceTo t).1.deferrals.length)
        + doneCount (s.advanceTo t).2
      ≤ s.completions.length + 2 * s.deferrals.length ∧
    (s.settle.1.completions.length + 2 * s.settle.1.deferrals.length) + doneCount s.settle.2
      ≤ s.completions.length + 2 * s.deferrals.length := by
  -- The load counts a completion once and a motion twice, since a motion may leave one completion
  -- behind.
  refine ⟨fun fs s' => advances_iff, fun fs s' => ⟨Settles.eq_settle, fun h => ?_⟩, ?_, ?_, ?_⟩
  · obtain ⟨rfl, rfl⟩ := Prod.mk.inj h
    exact settles_settle s
  · rw [← load_eq]
    exact length_advanceTo_le s t
  · rw [← load_eq, ← load_eq]
    exact keepsCost.load_advanceWithin s.load t s
  · rw [← load_eq, ← load_eq]
    exact load_settle s

end PlainStage

end LayerAnimation
