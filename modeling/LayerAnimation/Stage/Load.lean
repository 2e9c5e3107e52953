import LayerAnimation.Stage.Motion

/-!
# The load of a stage

How many jobs can come of those that wait.  A completion starts once.  A motion that was put off
starts once and leaves at most one completion, so it counts twice.  What a routine of the caller can
lead to is for the caller to say.

The main statements say what the operations of a stage do to its load: a registered job brings its
own share (`Stage.load_enqueue`), an animation brings that of one completion (`Stage.load_animate`),
and firing a completion brings nothing (`Stage.load_fire`).
-/

namespace LayerAnimation

variable {α κ σ ρ : Type}

/-! ## §1 Loads -/

/-- How many jobs can come of one, with a bound for routines. -/
def Job.load (cost : κ → Nat) : Job α κ → Nat
  | .completion _ => 1
  | .deferred _ => 2
  | .routine r => cost r

/-- How many jobs can come of those in a list. -/
def Timer.loads (cost : κ → Nat) (ts : List (Timer α κ)) : Nat :=
  ts.foldr (fun t n => t.job.load cost + n) 0

/-- How many jobs can come of those that wait. -/
def Stage.load (cost : κ → Nat) (s : Stage α κ σ) : Nat :=
  Timer.loads cost s.timers

/-! ## §2 What keeps the load -/

namespace Stage

/-- Routines keep to their costs: what a routine leaves behind weighs less than it did itself. -/
def KeepsCost (exec : κ → Stage α κ σ → Stage α κ σ × ρ) (cost : κ → Nat) : Prop :=
  ∀ (r : κ) (s : Stage α κ σ), (exec r s).1.load cost + 1 ≤ cost r + s.load cost

/-- Where routines keep to their costs, no job is without load. -/
theorem KeepsCost.one_le_load {exec : κ → Stage α κ σ → Stage α κ σ × ρ} {cost : κ → Nat}
    (h : KeepsCost exec cost) (s : Stage α κ σ) (job : Job α κ) : 1 ≤ job.load cost := by
  cases job with
  | completion => exact Nat.le_refl _
  | deferred => exact Nat.le_succ _
  | routine r =>
    have := h r { s with timers := [] }
    change _ ≤ cost r + 0 at this
    change 1 ≤ cost r
    omega

/-- Stages on which the same jobs wait have the same load. -/
theorem load_congr (cost : κ → Nat) {s r : Stage α κ σ} (h : s.timers = r.timers) :
    s.load cost = r.load cost :=
  congrArg (Timer.loads cost) h

/-- Whose clocks follow is no matter of the waiting jobs. -/
theorem timers_follow (s : Stage α κ σ) (id : LayerId) : (s.follow id).timers = s.timers := by
  unfold follow
  split <;> rfl

/-- Firing a completion registers nothing. -/
theorem timers_fire (s : Stage α κ σ) (c : Completion α) (ending : Ending) :
    (s.fire c ending).1.timers = s.timers := by
  unfold fire
  split
  · rfl
  · split <;> rfl

/-- Firing a completion keeps the load. -/
theorem load_fire (cost : κ → Nat) (s : Stage α κ σ) (c : Completion α) (ending : Ending) :
    (s.fire c ending).1.load cost = s.load cost :=
  load_congr cost (timers_fire s c ending)

variable [Scalar α]

/-- Attaching by itself registers nothing. -/
theorem timers_attach (s : Stage α κ σ) (now : α) (id : LayerId) (a : Animation α) :
    (s.attach now id a).1.timers = s.timers := by
  unfold attach
  split <;> rfl

end Stage

/-! ## §3 What changes the load -/

variable [Scalar α] (cost : κ → Nat)

/-- Among other timers a timer adds its own load, wherever it stands. -/
theorem Timer.loads_insert (t : Timer α κ) (ts : List (Timer α κ)) :
    Timer.loads cost (t.insert ts) = t.job.load cost + Timer.loads cost ts := by
  induction ts with
  | nil => rfl
  | cons u us ih =>
    unfold Timer.insert
    split
    · rfl
    · simp only [Timer.loads, List.foldr_cons] at ih ⊢
      omega

namespace Stage

/-- A registered job adds its own load. -/
theorem load_enqueue (s : Stage α κ σ) (after : α) (job : Job α κ) :
    (s.enqueue after job).load cost = job.load cost + s.load cost :=
  Timer.loads_insert cost _ _

/-- An animation brings at most the load of its completion. -/
theorem load_animate (s : Stage α κ σ) (id : LayerId) (a : Animation α) :
    (s.animate id a).1.load cost ≤ 1 + s.load cost := by
  have h := load_congr cost (timers_attach s s.now id a)
  unfold animate
  split
  · next s' e =>
    rw [e] at h
    change s'.load cost = s.load cost at h
    change s'.load cost ≤ 1 + s.load cost
    omega
  · next s' c e =>
    rw [e] at h
    change s'.load cost = s.load cost at h
    change (enqueueCompletion s' _ c).load cost ≤ 1 + s.load cost
    rw [enqueueCompletion, load_enqueue, load_congr cost (timers_follow s' c.layer), h]
    exact Nat.le_refl _

/-- A motion that is made at once brings at most the load of one completion. -/
theorem load_perform (s : Stage α κ σ) (id : LayerId) (intents : List (Intent α)) (duration : α)
    (easing : Easing α) :
    (s.perform id intents duration easing).1.load cost ≤ 1 + s.load cost := by
  unfold perform
  split
  · exact Nat.le_add_left _ _
  · exact load_animate cost _ _ _

/-- The first job takes its own load away. -/
theorem load_popDue {s rest : Stage α κ σ} {t : α} {timer : Timer α κ}
    (h : s.popDue t = some (timer, rest)) :
    s.load cost = timer.job.load cost + rest.load cost := by
  unfold popDue at h
  split at h
  · cases h
  · next u us e =>
    split at h
    · cases h
      simp only [load, Timer.loads, e, List.foldr_cons]
    · cases h

end Stage

end LayerAnimation
