import LayerAnimation.Stage.Load

/-!
# The clock of a stage

Moving the clock starts every job that falls due on the way, each at its own due time, in the order
of due times and registrations; jobs that these register are started too if they fall due.

A completion whose layer is in use is set aside and registered again, due at once, when the clock
has arrived.  `Stage.advanceTo` moves the clock to a moment and `Stage.settle` moves it from job to
job until none can be started.  Both report what was started, one `Firing` per job.

How a routine of the caller runs is a parameter; a stage without routines is a `PlainStage`, and its
operations stand at the end.  The number of jobs that can start is bounded by the load of the stage,
and with that much fuel no due job is left behind (`Stage.KeepsCost.popDue_startDue`).
-/

namespace LayerAnimation

variable {α κ σ ρ : Type}

/-! ## §1 Firings -/

/-- What became of a job that was started. -/
inductive Outcome (α ρ : Type) where
  /-- A completion wrote this many values. -/
  | completed (id : AnimationId) (written : Nat)
  /-- A completion found its layer in use. -/
  | refused (c : Completion α)
  /-- A motion that was put off started an animation, or found its layer gone or in use. -/
  | started (id : Option AnimationId)
  /-- A routine ran and left a record. -/
  | ran (record : ρ)
  deriving Repr

/-- A job that was started: when it was due, its registration, and what became of it. -/
structure Firing (α ρ : Type) where
  due : α
  seq : Nat
  outcome : Outcome α ρ
  deriving Repr

namespace Firing

/-- The completion that was refused, if that is what happened. -/
def refused? (f : Firing α ρ) : Option (Completion α) :=
  match f.outcome with
  | .refused c => some c
  | _ => none

/-- Whether the job is done. -/
def isDone (f : Firing α ρ) : Bool :=
  f.refused?.isNone

/-- The record of a routine, if one ran. -/
def record? (f : Firing α ρ) : Option ρ :=
  match f.outcome with
  | .ran record => some record
  | _ => none

end Firing

/-- How many of some jobs are done. -/
def doneCount (fs : List (Firing α ρ)) : Nat :=
  fs.countP Firing.isDone

namespace Stage

variable [Scalar α]

/-! ## §2 Moving the clock -/

section Moving

variable (exec : κ → Stage α κ σ → Stage α κ σ × ρ)

/-- Start a job. -/
def start (job : Job α κ) (s : Stage α κ σ) : Stage α κ σ × Outcome α ρ :=
  match job with
  | .completion c =>
      match s.fire c .finished with
      | (s, .ok count) => (s, .completed c.id count)
      | (s, .error c) => (s, .refused c)
  | .deferred d =>
      let started := s.startDeferred d
      (started.1, .started started.2)
  | .routine r =>
      let result := exec r s
      (result.1, .ran result.2)

/-- Start the jobs that are due up to a moment, at most `fuel` of them. -/
def startDue (t : α) : Nat → Stage α κ σ → Stage α κ σ × List (Firing α ρ)
  | 0, s => (s, [])
  | fuel + 1, s =>
      match s.popDue t with
      | none => (s, [])
      | some (timer, s) =>
          -- The job sees the clock at its own due time.
          let started := start exec timer.job (s.moveClock timer.due).sync
          let rest := startDue t fuel started.1
          (rest.1, ⟨timer.due, timer.seq, started.2⟩ :: rest.2)

/-- Register completions that were refused again, due at once. -/
def requeue (s : Stage α κ σ) (cs : List (Completion α)) : Stage α κ σ :=
  cs.foldl (fun s c => s.enqueue 0.0 (.completion c)) s

/-- Move the clock to a moment, starting at most `fuel` jobs. -/
def advanceWithin (fuel : Nat) (t : α) (s : Stage α κ σ) : Stage α κ σ × List (Firing α ρ) :=
  let run := startDue exec t fuel s
  -- What was refused waits again only now, so it is not met twice on the way.
  (((run.1.moveClock t).requeue (run.2.filterMap Firing.refused?)).sync, run.2)

/-- Move the clock from job to job until no job waits or none can be done, at most `rounds` times
and starting at most `fuel` jobs each time. -/
def settleWithin (fuel : Nat) : Nat → Stage α κ σ → Stage α κ σ × List (Firing α ρ)
  | 0, s => (s, [])
  | rounds + 1, s =>
      match s.timers with
      | [] => (s, [])
      | timer :: _ =>
          let run := advanceWithin exec fuel timer.due s
          -- Nothing was done, and trying again would not change that.
          if doneCount run.2 = 0 then run
          else
            let rest := settleWithin fuel rounds run.1
            (rest.1, run.2 ++ rest.2)

end Moving

/-- The moment that lies a step ahead; a step back stays where it is. -/
def ahead (s : Stage α κ σ) (dt : α) : α :=
  s.now + Scalar.larger dt 0.0

/-! ## §3 The load is enough -/

section Load

variable {exec : κ → Stage α κ σ → Stage α κ σ × ρ} {cost : κ → Nat}

/-- A job that was started weighs less than one that waits. -/
theorem KeepsCost.load_start (h : KeepsCost exec cost) (job : Job α κ) (s : Stage α κ σ) :
    (start exec job s).1.load cost + 1 ≤ job.load cost + s.load cost := by
  unfold start
  split
  · next c =>
    have := load_fire cost s c .finished
    split <;>
      next e =>
        rw [e] at this
        dsimp only [Job.load] at this ⊢
        omega
  · next d =>
    have := load_perform cost s d.layer d.intents d.duration d.easing
    simp only [startDeferred, Job.load]
    omega
  · exact h _ _

/-- With as much fuel as the load of the stage, no job is left that is due. -/
theorem KeepsCost.popDue_startDue (h : KeepsCost exec cost) (t : α) (fuel : Nat)
    (s : Stage α κ σ) (enough : s.load cost ≤ fuel) :
    (startDue exec t fuel s).1.popDue t = none := by
  induction fuel generalizing s with
  | zero =>
    unfold startDue
    cases e : s.popDue t with
    | none => rfl
    | some popped =>
      have := load_popDue cost e
      have := h.one_le_load s popped.1.job
      omega
  | succ fuel ih =>
    unfold startDue
    split
    · assumption
    · next timer rest e =>
      apply ih
      have := load_popDue cost e
      have := h.load_start timer.job (rest.moveClock timer.due).sync
      have : (rest.moveClock timer.due).sync.load cost = rest.load cost := rfl
      omega

/-- More fuel than the load of the stage makes no difference. -/
theorem KeepsCost.startDue_eq (h : KeepsCost exec cost) (t : α) (fuel more : Nat)
    (s : Stage α κ σ) (enough : s.load cost ≤ fuel) (le : fuel ≤ more) :
    startDue exec t more s = startDue exec t fuel s := by
  induction fuel generalizing s more with
  | zero =>
    have := h.popDue_startDue t 0 s enough
    unfold startDue at this ⊢
    cases more with
    | zero => rfl
    | succ more => simp only [this]
  | succ fuel ih =>
    obtain _ | more := more
    · omega
    · unfold startDue
      split
      · rfl
      · next timer rest e =>
        have := load_popDue cost e
        have := h.load_start timer.job (rest.moveClock timer.due).sync
        have : (rest.moveClock timer.due).sync.load cost = rest.load cost := rfl
        have := ih more (start exec timer.job (rest.moveClock timer.due).sync).1 (by omega) (by omega)
        simp only [this]

end Load

end Stage

/-! ## §4 Stages without routines -/

/-- A stage on which only completions and motions wait. -/
abbrev PlainStage (α : Type) := Stage α Empty Unit

namespace PlainStage

/-- How many jobs can come of those that wait. -/
def load (s : PlainStage α) : Nat :=
  Stage.load Empty.elim s

/-- There are no routines to run. -/
def exec (r : Empty) (s : PlainStage α) : PlainStage α × Empty :=
  (s, r)

/-- Where there are no routines, all of them keep to their costs. -/
theorem keepsCost : Stage.KeepsCost (exec (α := α)) Empty.elim :=
  fun r => r.elim

variable [Scalar α]

/-- Move the clock to a moment. -/
def advanceTo (s : PlainStage α) (t : α) : PlainStage α × List (Firing α Empty) :=
  Stage.advanceWithin exec s.load t s

/-- Move the clock ahead by a step. -/
def advance (s : PlainStage α) (dt : α) : PlainStage α × List (Firing α Empty) :=
  s.advanceTo (Stage.ahead s dt)

/-- Move the clock from job to job until no job waits or none can be done. -/
def settle (s : PlainStage α) : PlainStage α × List (Firing α Empty) :=
  Stage.settleWithin exec s.load s.load s

end PlainStage

end LayerAnimation
