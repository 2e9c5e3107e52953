import LayerAnimation.Stage.Clock

/-!
# Advancing without fuel

The clock of a stage is moved with fuel.  On a stage without routines the load of the stage is fuel
enough, so the operations obey equations in which no fuel is left:

- `PlainStage.runDue` starts the jobs that are due up to a moment, one after the other
  (`runDue_of_idle`, `runDue_of_popDue`), and `PlainStage.runDue_induction` is its induction.
- `PlainStage.advanceTo` runs what is due, moves the clock and registers what was refused.
- `PlainStage.settle` advances to the first due time until nothing waits or nothing is done
  (`settle_of_empty`, `settle_of_stuck`, `settle_of_done`), with `PlainStage.settle_induction`.

All of it rests on one inequality: an advance takes away at least as much load as it gets jobs done
(`Stage.KeepsCost.load_advanceWithin`).
-/

namespace LayerAnimation

variable {α κ σ ρ : Type}

namespace Stage

/-! ## §1 What an advance does to the load -/

section Load

variable {exec : κ → Stage α κ σ → Stage α κ σ × ρ} {cost : κ → Nat}

/-- Every job that was started is done or was refused. -/
theorem doneCount_add_refused (fs : List (Firing α ρ)) :
    doneCount fs + (fs.filterMap Firing.refused?).length = fs.length := by
  induction fs with
  | nil => rfl
  | cons f fs ih =>
    cases hf : f.refused? <;>
      simp only [doneCount, List.countP_cons, List.filterMap_cons, List.length_cons, hf,
        Firing.isDone, Option.isNone_none, Option.isNone_some, ↓reduceIte, Bool.false_eq_true,
        Nat.add_zero] at ih ⊢ <;>
      omega

theorem KeepsCost.timers_of_load_zero (h : KeepsCost exec cost) {s : Stage α κ σ}
    (hload : s.load cost = 0) : s.timers = [] := by
  cases ht : s.timers with
  | nil => rfl
  | cons u us =>
    have hone := h.one_le_load s u.job
    simp only [load, Timer.loads, ht, List.foldr_cons] at hload
    omega

variable [Scalar α]

/-- Starting due jobs takes away at least one unit of load for each of them. -/
theorem KeepsCost.load_startDue (h : KeepsCost exec cost) (t : α) (fuel : Nat)
    (s : Stage α κ σ) :
    (startDue exec t fuel s).1.load cost + (startDue exec t fuel s).2.length ≤ s.load cost := by
  induction fuel generalizing s with
  | zero => exact Nat.le_refl _
  | succ fuel ih =>
    unfold startDue
    split
    · exact Nat.le_refl _
    · next timer rest e =>
      have hpop := load_popDue cost e
      have hstart := h.load_start timer.job (rest.moveClock timer.due).sync
      have hsync : (rest.moveClock timer.due).sync.load cost = rest.load cost := rfl
      have hrest := ih (start exec timer.job (rest.moveClock timer.due).sync).1
      simp only [List.length_cons]
      omega

theorem load_requeue (s : Stage α κ σ) (cs : List (Completion α)) :
    (s.requeue cs).load cost = cs.length + s.load cost := by
  induction cs generalizing s with
  | nil => simp [requeue]
  | cons c cs ih =>
    have henq := load_enqueue cost s 0.0 (.completion c)
    have hrest := ih (s.enqueue 0.0 (.completion c))
    simp only [requeue, List.foldl_cons, List.length_cons, Job.load] at hrest henq ⊢
    omega

/-- An advance takes away at least as much load as it gets jobs done. -/
theorem KeepsCost.load_advanceWithin (h : KeepsCost exec cost) (fuel : Nat) (t : α)
    (s : Stage α κ σ) :
    (advanceWithin exec fuel t s).1.load cost + doneCount (advanceWithin exec fuel t s).2
      ≤ s.load cost := by
  have hstart := h.load_startDue t fuel s
  have hdone := doneCount_add_refused (startDue exec t fuel s).2
  have hqueue : (((startDue exec t fuel s).1.moveClock t).requeue
      ((startDue exec t fuel s).2.filterMap Firing.refused?)).load cost
        = ((startDue exec t fuel s).2.filterMap Firing.refused?).length
          + ((startDue exec t fuel s).1.moveClock t).load cost := load_requeue _ _
  have hclock : ((startDue exec t fuel s).1.moveClock t).load cost
      = (startDue exec t fuel s).1.load cost := rfl
  change (requeue _ _).load cost + doneCount (startDue exec t fuel s).2 ≤ _
  omega

theorem KeepsCost.advanceWithin_eq (h : KeepsCost exec cost) {fuel : Nat} {t : α}
    {s : Stage α κ σ} (enough : s.load cost ≤ fuel) :
    advanceWithin exec fuel t s = advanceWithin exec (s.load cost) t s := by
  simp only [advanceWithin, h.startDue_eq t (s.load cost) fuel s (Nat.le_refl _) enough]

/-- Settling is the same with any fuel and any rounds that reach the load of the stage. -/
theorem KeepsCost.settleWithin_eq (h : KeepsCost exec cost) {fuel fuel' rounds rounds' : Nat}
    {s : Stage α κ σ} (hfuel : s.load cost ≤ fuel) (hfuel' : s.load cost ≤ fuel')
    (hrounds : s.load cost ≤ rounds) (hrounds' : s.load cost ≤ rounds') :
    settleWithin exec fuel rounds s = settleWithin exec fuel' rounds' s := by
  -- The load falls in every round that is followed by another, so the rounds carry the induction.
  induction rounds generalizing s rounds' with
  | zero =>
    have hnil := h.timers_of_load_zero (Nat.le_zero.mp hrounds)
    cases rounds' <;> simp only [settleWithin, hnil]
  | succ rounds ih =>
    cases ht : s.timers with
    | nil => cases rounds' <;> simp only [settleWithin, ht]
    | cons u us =>
      obtain _ | rounds' := rounds'
      · have hnil := h.timers_of_load_zero (Nat.le_zero.mp hrounds')
        rw [ht] at hnil
        cases hnil
      · have hfall := h.load_advanceWithin (s.load cost) u.due s
        simp only [settleWithin, ht, h.advanceWithin_eq hfuel, h.advanceWithin_eq hfuel']
        split
        · rfl
        · next hdone =>
          have hrest := @ih rounds' (advanceWithin exec (s.load cost) u.due s).1
            (by omega) (by omega) (by omega) (by omega)
          rw [hrest]

end Load

variable [Scalar α]

theorem popDue_eq_some_iff {s r : Stage α κ σ} {t : α} {u : Timer α κ} :
    s.popDue t = some (u, r) ↔
      ∃ us, s.timers = u :: us ∧ u.due ≤ t ∧ r = { s with timers := us } := by
  unfold popDue
  constructor
  · intro h
    split at h
    · cases h
    · next v vs e =>
      split at h
      · next hdue =>
        cases h
        exact ⟨vs, e, hdue, rfl⟩
      · cases h
  · rintro ⟨us, h, hdue, rfl⟩
    simp only [h, hdue, ↓reduceIte]

theorem mem_of_popDue {s r : Stage α κ σ} {t : α} {u : Timer α κ}
    (popped : s.popDue t = some (u, r)) : u ∈ s.timers := by
  obtain ⟨us, hus, -, -⟩ := popDue_eq_some_iff.mp popped
  rw [hus]
  exact List.mem_cons_self

theorem popDue_eq_none_iff {s : Stage α κ σ} {t : α} :
    s.popDue t = none ↔ ∀ u us, s.timers = u :: us → ¬ u.due ≤ t := by
  constructor
  · intro h u us hcons hdue
    rw [popDue_eq_some_iff.mpr ⟨us, hcons, hdue, rfl⟩] at h
    cases h
  · intro h
    cases e : s.popDue t with
    | none => rfl
    | some popped =>
      obtain ⟨us, hcons, hdue, _⟩ := popDue_eq_some_iff.mp e
      exact absurd hdue (h _ us hcons)

end Stage

namespace PlainStage

variable {s r : PlainStage α} {t : α} {u : Timer α Empty} {us : List (Timer α Empty)}

theorem load_pos (h : s.timers = u :: us) : 0 < s.load := by
  rcases Nat.eq_zero_or_pos s.load with hzero | hpos
  · have hnil := keepsCost.timers_of_load_zero hzero
    rw [h] at hnil
    cases hnil
  · exact hpos

variable [Scalar α]

/-! ## §2 Running what is due -/

/-- Start the job of a timer that was taken from the queue, at its own due time. -/
def startTimer (u : Timer α Empty) (s : PlainStage α) : PlainStage α × Outcome α Empty :=
  Stage.start exec u.job (s.moveClock u.due).sync

/-- Start the jobs that are due up to a moment, without moving the clock further. -/
def runDue (s : PlainStage α) (t : α) : PlainStage α × List (Firing α Empty) :=
  Stage.startDue exec t s.load s

/-- An advance runs what is due, moves the clock and registers what was refused. -/
theorem advanceTo_eq (s : PlainStage α) (t : α) :
    s.advanceTo t =
      ((((s.runDue t).1.moveClock t).requeue ((s.runDue t).2.filterMap Firing.refused?)).sync,
        (s.runDue t).2) :=
  rfl

theorem load_startTimer (h : s.popDue t = some (u, r)) :
    (startTimer u r).1.load + 1 ≤ s.load := by
  have hpop : s.load = u.job.load Empty.elim + r.load := Stage.load_popDue Empty.elim h
  have hstart := keepsCost.load_start u.job (r.moveClock u.due).sync
  have hsync : (r.moveClock u.due).sync.load Empty.elim = r.load := rfl
  change (Stage.start exec u.job (r.moveClock u.due).sync).1.load Empty.elim + 1 ≤ _
  omega

theorem runDue_of_idle (h : s.popDue t = none) : s.runDue t = (s, []) := by
  unfold runDue
  cases s.load with
  | zero => rfl
  | succ fuel => simp only [Stage.startDue, h]

/-- The first due job is started, and then the others. -/
theorem runDue_of_popDue (h : s.popDue t = some (u, r)) :
    s.runDue t = (((startTimer u r).1.runDue t).1,
      ⟨u.due, u.seq, (startTimer u r).2⟩ :: ((startTimer u r).1.runDue t).2) := by
  have hload := load_startTimer h
  obtain ⟨fuel, hfuel⟩ : ∃ fuel, s.load = fuel + 1 := ⟨s.load - 1, by omega⟩
  -- The fuel that is left is enough for the rest, so it is as good as the load of the rest.
  have hrest : Stage.startDue exec t fuel (startTimer u r).1 = (startTimer u r).1.runDue t :=
    keepsCost.startDue_eq t _ fuel _ (Nat.le_refl _)
      (by omega)
  rw [← hrest]
  simp only [runDue, hfuel, Stage.startDue, h]
  rfl

/-- Induction along the jobs that are run up to a moment. -/
theorem runDue_induction {motive : PlainStage α → Prop} (t : α)
    (idle : ∀ s, s.popDue t = none → motive s)
    (next : ∀ s u r, s.popDue t = some (u, r) → motive (startTimer u r).1 → motive s)
    (s : PlainStage α) : motive s := by
  -- Every job that is started lowers the load.
  induction hn : s.load using Nat.strongRecOn generalizing s with
  | ind n ih =>
    cases h : s.popDue t with
    | none => exact idle s h
    | some popped =>
      obtain ⟨u, r⟩ := popped
      have hload := load_startTimer h
      exact next s u r h (ih _ (by omega) _ rfl)

theorem popDue_runDue (s : PlainStage α) (t : α) : (s.runDue t).1.popDue t = none :=
  keepsCost.popDue_startDue t s.load s (Nat.le_refl _)

/-! ## §3 Settling -/

theorem settle_of_empty (h : s.timers = []) : s.settle = (s, []) := by
  unfold settle
  cases s.load with
  | zero => rfl
  | succ rounds => simp only [Stage.settleWithin, h]

/-- Settling ends with the advance that gets nothing done. -/
theorem settle_of_stuck (h : s.timers = u :: us) (hdone : doneCount (s.advanceTo u.due).2 = 0) :
    s.settle = s.advanceTo u.due := by
  have hpos := load_pos h
  obtain ⟨rounds, hrounds⟩ : ∃ rounds, s.load = rounds + 1 := ⟨s.load - 1, by omega⟩
  unfold settle advanceTo at *
  rw [hrounds] at hdone ⊢
  simp only [Stage.settleWithin, h, hdone, ↓reduceIte]

/-- Settling goes on after an advance that gets something done. -/
theorem settle_of_done (h : s.timers = u :: us) (hdone : doneCount (s.advanceTo u.due).2 ≠ 0) :
    s.settle = ((s.advanceTo u.due).1.settle.1,
      (s.advanceTo u.due).2 ++ (s.advanceTo u.due).1.settle.2) := by
  have hfall : (s.advanceTo u.due).1.load + doneCount (s.advanceTo u.due).2 ≤ s.load :=
    keepsCost.load_advanceWithin s.load u.due s
  obtain ⟨rounds, hrounds⟩ : ∃ rounds, s.load = rounds + 1 := ⟨s.load - 1, by omega⟩
  have hrest : Stage.settleWithin exec s.load rounds (s.advanceTo u.due).1
      = (s.advanceTo u.due).1.settle :=
    keepsCost.settleWithin_eq (by change (s.advanceTo u.due).1.load ≤ _; omega) (Nat.le_refl _)
      (by change (s.advanceTo u.due).1.load ≤ _; omega) (Nat.le_refl _)
  have hstep : s.settle = Stage.settleWithin exec s.load (rounds + 1) s := by
    rw [← hrounds]
    rfl
  rw [hstep, ← hrest]
  simp only [Stage.settleWithin, h]
  exact if_neg hdone

/-- Induction along the advances of settling. -/
theorem settle_induction {motive : PlainStage α → Prop}
    (empty : ∀ s, s.timers = [] → motive s)
    (stuck : ∀ s u us, s.timers = u :: us → doneCount (s.advanceTo u.due).2 = 0 → motive s)
    (done : ∀ s u us, s.timers = u :: us → doneCount (s.advanceTo u.due).2 ≠ 0 →
      motive (s.advanceTo u.due).1 → motive s)
    (s : PlainStage α) : motive s := by
  induction hn : s.load using Nat.strongRecOn generalizing s with
  | ind n ih =>
    cases h : s.timers with
    | nil => exact empty s h
    | cons u us =>
      by_cases hdone : doneCount (s.advanceTo u.due).2 = 0
      · exact stuck s u us h hdone
      · have hfall : (s.advanceTo u.due).1.load + doneCount (s.advanceTo u.due).2 ≤ s.load :=
          keepsCost.load_advanceWithin s.load u.due s
        exact done s u us h hdone (ih _ (by omega) _ rfl)

end PlainStage

end LayerAnimation
