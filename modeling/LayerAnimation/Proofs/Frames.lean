import LayerAnimation.Proofs.Stopovers
import LayerAnimation.Script

/-!
# Frames do not matter

A simulation moves the clock frame by frame and issues steps on the way, as many as fall into the
frame.  What it shows at a frame and what it ends with are nevertheless those of the script alone,
with every step issued at its own time and no frame in between.

- `Script.issuedBy` and `Script.issuedAll` are the stages of the script alone, after the steps up to
  a moment and after all steps.
- `Meets` says that two stages become the same from a moment on; a stage keeps this from frame to
  frame by the law of stopovers.
- `Script.InStep` is the invariant of the frame loop, and `Script.simulate_eq` its outcome.
-/

namespace LayerAnimation

open LawfulTime

variable {α : Type} [Scalar α]

namespace Script

open PlainStage

/-! ## §1 A script without frames -/

/-- The stage after the steps up to a moment, each issued at its own time. -/
def issuedBy (s : Script α) (t : α) : PlainStage α :=
  (s.steps.filter (·.time ≤ t)).foldl issue s.opening

/-- The stage after all steps, each issued at its own time. -/
def issuedAll (s : Script α) : PlainStage α :=
  s.steps.foldl issue s.opening

theorem unheld_opening (s : Script α) : s.opening.Unheld := by
  have hhold : s.opening.hold? = (Stage.ofLayers [.ofValues s.initial]).hold? :=
    (Stage.hold?_sync _).trans (Stage.hold?_follow _ _)
  intro id
  rw [hhold, Stage.hold?, Stage.cell?_ofLayers]
  cases [Layer.ofValues s.initial][id]? with
  | none => exact .inl rfl
  | some l => exact .inr rfl

theorem hold?_issue (stage : PlainStage α) (step : Step α) :
    (issue stage step).hold? = stage.hold? := by
  refine Eq.trans ?_ (hold?_advanceTo stage step.time)
  unfold issue Stage.motion
  split
  · rfl
  · exact Stage.hold?_perform _ _ _ _ _

theorem unheld_foldl_issue {stage : PlainStage α} (h : stage.Unheld) (steps : List (Step α)) :
    (steps.foldl issue stage).Unheld := by
  induction steps generalizing stage with
  | nil => exact h
  | cons step steps ih => exact ih (h.of_hold? (hold?_issue stage step))

section Issue

variable [LawfulTime α]

theorem timely_opening (s : Script α) : s.opening.Timely := by
  have hstage : (Stage.ofLayers [.ofValues s.initial]).Timely := timely_ofLayers _
  exact hstage.transitions (transitions_perform (.watch stageLayer) _ 0)

theorem timely_issue {stage : PlainStage α} (h : stage.Timely) (step : Step α) :
    (issue stage step).Timely :=
  (timely_advanceTo h step.time).transitions
    (transitions_perform (.motion stageLayer step.intents step.options) _ 0)

theorem timely_foldl_issue {stage : PlainStage α} (h : stage.Timely) (steps : List (Step α)) :
    (steps.foldl issue stage).Timely := by
  induction steps generalizing stage with
  | nil => exact h
  | cons step steps ih => exact ih (timely_issue h step)

end Issue

/-! ## §2 Stages that meet -/

/-- Stages that become the same when their clocks are moved to any moment from a given one on. -/
def Meets (start : α) (stage r : PlainStage α) : Prop :=
  ∀ t, start ≤ t → (stage.advanceTo t).1 = (r.advanceTo t).1

theorem meets_advanceTo [LawfulTime α] {stage : PlainStage α} (h : stage.Timely)
    (unheld : stage.Unheld) (t : α) : Meets t (stage.advanceTo t).1 stage :=
  fun _ le => advanceTo_advanceTo h unheld le

/-- Stages that meet before some steps stay together over them. -/
theorem Meets.foldl_issue {start t : α} {stage r : PlainStage α} (h : Meets start stage r)
    {steps : List (Step α)} (ahead : ∀ step ∈ steps, start ≤ step.time) (le : start ≤ t) :
    ((steps.foldl issue stage).advanceTo t).1 = ((steps.foldl issue r).advanceTo t).1 := by
  cases steps with
  | nil => exact h t le
  | cons step steps =>
    -- To issue the first step both clocks are moved to its time, and there the stages are the same.
    have hissue : issue stage step = issue r step := by
      rw [issue, issue, h step.time (ahead step List.mem_cons_self)]
    rw [List.foldl_cons, List.foldl_cons, hissue]

/-! ## §3 Scripts in order -/

/-- The steps of a script begin at time zero or later and stand in the order of their times. -/
structure Ordered (s : Script α) : Prop where
  clock : ∀ step ∈ s.steps, 0.0 ≤ step.time
  sorted : s.steps.Pairwise fun first second => first.time ≤ second.time

section Ordered

variable [LawfulTime α]

theorem zero_le_of_checkStep {index : Nat} {step : Step α}
    (h : checkStep index step = .ok ()) : 0.0 ≤ step.time := by
  unfold checkStep at h
  split at h
  · cases h
  · next husable =>
    simp only [Options.usableDelay, Bool.not_eq_true', Bool.and_eq_true,
      decide_eq_false_iff_not, Bool.not_eq_false] at husable
    exact le_of_not_lt (le_self_of_isFinite husable.1) zero_le_zero husable.2

theorem zero_le_of_checkSteps {index : Nat} {steps : List (Step α)}
    (h : checkSteps index steps = .ok ()) : ∀ step ∈ steps, 0.0 ≤ step.time := by
  induction steps generalizing index with
  | nil => simp
  | cons step rest ih =>
    unfold checkSteps at h
    cases hfirst : checkStep index step with
    | error problem =>
      rw [hfirst] at h
      cases h
    | ok _ =>
      rw [hfirst] at h
      exact List.forall_mem_cons.mpr ⟨zero_le_of_checkStep hfirst, ih h⟩

theorem pairwise_of_isSorted {steps : List (Step α)} (h : isSorted steps = true) :
    steps.Pairwise fun first second => first.time ≤ second.time := by
  induction steps with
  | nil => exact .nil
  | cons first rest ih =>
    cases rest with
    | nil => exact List.pairwise_singleton _ first
    | cons second rest =>
      rw [isSorted, Bool.and_eq_true, decide_eq_true_eq] at h
      have hrest := ih h.2
      refine List.pairwise_cons.mpr ⟨fun step hstep => ?_, hrest⟩
      rcases List.mem_cons.mp hstep with rfl | hmem
      · exact h.1
      · exact le_trans h.1 ((List.pairwise_cons.mp hrest).1 step hmem)

/-- A script that passes its check is in order. -/
theorem ordered_of_check {s : Script α} (h : s.check = .ok ()) : s.Ordered := by
  unfold check at h
  cases hsteps : checkSteps 0 s.steps with
  | error problem =>
    rw [hsteps] at h
    cases h
  | ok _ =>
    rw [hsteps] at h
    refine ⟨zero_le_of_checkSteps hsteps, pairwise_of_isSorted ?_⟩
    by_contra hsorted
    change (if isSorted s.steps = true then pure () else throw Problem.unsorted) = Except.ok () at h
    rw [if_neg hsorted] at h
    cases h

end Ordered

/-! ## §4 One frame -/

/-- The steps that are issued in a frame are those at the front whose time has come. -/
theorem issueDue_eq (t : α) (steps : List (Step α)) (stage : PlainStage α) :
    issueDue t steps stage
      = ((steps.takeWhile (·.time ≤ t)).foldl issue stage, steps.dropWhile (·.time ≤ t)) := by
  induction steps generalizing stage with
  | nil => rfl
  | cons step rest ih =>
    unfold issueDue
    by_cases hdue : step.time ≤ t
    · rw [if_pos hdue, ih]
      simp [hdue]
    · rw [if_neg hdue]
      simp [hdue]

section Sorted

variable [LawfulTime α] {steps : List (Step α)} {t : α}

/-- In a sorted list no step is due behind the first one that is not. -/
theorem not_due_of_mem_dropWhile
    (sorted : steps.Pairwise fun first second => first.time ≤ second.time) {step : Step α}
    (h : step ∈ steps.dropWhile (·.time ≤ t)) : ¬ step.time ≤ t := by
  induction steps with
  | nil => cases h
  | cons first rest ih =>
    obtain ⟨hfirst, hrest⟩ := List.pairwise_cons.mp sorted
    by_cases hdue : first.time ≤ t
    · rw [List.dropWhile_cons_of_pos (by simpa using hdue)] at h
      exact ih hrest h
    · rw [List.dropWhile_cons_of_neg (by simpa using hdue)] at h
      rcases List.mem_cons.mp h with rfl | hmem
      · exact hdue
      · exact fun hle => hdue (le_trans (hfirst step hmem) hle)

/-- In a sorted list the steps up to a moment stand at the front. -/
theorem filter_eq_takeWhile
    (sorted : steps.Pairwise fun first second => first.time ≤ second.time) :
    steps.filter (·.time ≤ t) = steps.takeWhile (·.time ≤ t) := by
  have hfront : (steps.takeWhile (·.time ≤ t)).filter (·.time ≤ t)
      = steps.takeWhile (·.time ≤ t) := by
    rw [List.filter_eq_self]
    intro step hstep
    have hdue := List.mem_takeWhile_imp hstep
    exact hdue
  -- Behind the first step that is not due nothing passes the filter.
  have hback : (steps.dropWhile (·.time ≤ t)).filter (·.time ≤ t) = [] := by
    rw [List.filter_eq_nil_iff]
    exact fun _ hstep hle => not_due_of_mem_dropWhile sorted hstep (of_decide_eq_true hle)
  calc steps.filter (·.time ≤ t)
      = (steps.takeWhile (·.time ≤ t) ++ steps.dropWhile (·.time ≤ t)).filter (·.time ≤ t) := by
        rw [List.takeWhile_append_dropWhile]
    _ = steps.takeWhile (·.time ≤ t) := by
        rw [List.filter_append, hfront, hback, List.append_nil]

end Sorted

/-- Where the frame loop stands between two frames, with some steps issued and the others still to
come: its stage meets the one to which the issued steps lead by themselves. -/
structure InStep (s : Script α) (start : α) (issued steps : List (Step α)) (stage : PlainStage α) :
    Prop where
  split : s.steps = issued ++ steps
  past : ∀ step ∈ issued, step.time ≤ start
  ahead : ∀ step ∈ steps, start ≤ step.time
  meets : Meets start stage (issued.foldl issue s.opening)

theorem inStep_opening {s : Script α} (h : s.Ordered) : InStep s 0.0 [] s.steps s.opening where
  split := rfl
  past := nofun
  ahead := h.clock
  meets := fun _ _ => rfl

section InStep

variable [LawfulTime α] {s : Script α} {start t : α} {issued steps : List (Step α)}
  {stage : PlainStage α}

/-- The steps up to a frame are those that were issued before it and those that are issued now. -/
theorem InStep.filter_eq (h : InStep s start issued steps stage) (ordered : s.Ordered)
    (le : start ≤ t) :
    s.steps.filter (·.time ≤ t) = issued ++ steps.takeWhile (·.time ≤ t) := by
  have hsorted := ordered.sorted
  rw [h.split, List.pairwise_append] at hsorted
  -- What was issued before is past at this frame too.
  have hissued : issued.filter (·.time ≤ t) = issued := by
    rw [List.filter_eq_self]
    exact fun step hstep => decide_eq_true (le_trans (h.past step hstep) le)
  rw [h.split, List.filter_append, hissued, filter_eq_takeWhile hsorted.2.1]

/-- At a frame the stage is where the steps up to it lead by themselves. -/
theorem InStep.arrived (h : InStep s start issued steps stage) (ordered : s.Ordered)
    (le : start ≤ t) :
    ((issueDue t steps stage).1.advanceTo t).1 = ((s.issuedBy t).advanceTo t).1 := by
  have hfront : ∀ step ∈ steps.takeWhile (·.time ≤ t), start ≤ step.time :=
    fun step hstep => h.ahead step (List.takeWhile_subset _ hstep)
  rw [issueDue_eq, issuedBy, h.filter_eq ordered le, List.foldl_append]
  exact h.meets.foldl_issue hfront le

/-- A frame leads to the next one. -/
theorem InStep.frame (h : InStep s start issued steps stage) (ordered : s.Ordered)
    (le : start ≤ t) :
    InStep s t (issued ++ steps.takeWhile (·.time ≤ t)) (issueDue t steps stage).2
      ((issueDue t steps stage).1.advanceTo t).1 where
  split := by
    rw [issueDue_eq, List.append_assoc, List.takeWhile_append_dropWhile]
    exact h.split
  past := by
    intro step hstep
    rw [← h.filter_eq ordered le] at hstep
    exact of_decide_eq_true (List.mem_filter.mp hstep).2
  ahead := by
    intro step hstep
    rw [issueDue_eq] at hstep
    have hsorted := ordered.sorted
    rw [h.split, List.pairwise_append] at hsorted
    have hlater := not_due_of_mem_dropWhile hsorted.2.1 hstep
    have hproper := le_right (h.ahead step ((List.dropWhile_suffix _).subset hstep))
    exact le_of_not_le hproper (le_right le) hlater
  meets := by
    rw [h.arrived ordered le, ← h.filter_eq ordered le]
    exact meets_advanceTo (timely_foldl_issue s.timely_opening _)
      (unheld_foldl_issue s.unheld_opening _) t

omit [Scalar α] in
theorem held_eq (stage : PlainStage α) :
    held stage = ((stage.cell? stageLayer).map (·.layer.values)).getD .empty := by
  unfold held
  cases stage.cell? stageLayer <;> rfl

/-- A frame at which no step is left and no job waits comes past everything. -/
theorem InStep.held_arrived (h : InStep s start issued steps stage) (ordered : s.Ordered)
    (le : start ≤ t) (last : (issueDue t steps stage).2 = [])
    (idle : ((issueDue t steps stage).1.advanceTo t).1.timers = []) :
    held ((issueDue t steps stage).1.advanceTo t).1 = held s.issuedAll.settle.1 := by
  have hall : s.issuedBy t = s.issuedAll := by
    have hsplit := (h.frame ordered le).split
    rw [last, List.append_nil] at hsplit
    rw [issuedBy, h.filter_eq ordered le, ← hsplit, issuedAll]
  rw [h.arrived ordered le, hall] at idle ⊢
  have hvalues := values_settle_of_advanceTo (timely_foldl_issue s.timely_opening s.steps)
    (unheld_foldl_issue s.unheld_opening s.steps) idle stageLayer
  rw [held_eq, held_eq, issuedAll, hvalues]

end InStep

/-! ## §5 The frame loop -/

/-- Every frame shows what the steps up to it lead to, and the last one holds what all steps lead to
when everything that comes of them is over. -/
theorem frames_eq [LawfulTime α] {s : Script α} (ordered : s.Ordered) {fps : α}
    (rising : ∀ n, frameTime fps n ≤ frameTime fps (n + 1)) {fuel frame : Nat}
    {issued steps : List (Step α)} {stage : PlainStage α} {taken : List (Sample α)}
    {start : α} (inStep : InStep s start issued steps stage) (le : start ≤ frameTime fps frame)
    (shows : ∀ x ∈ taken, x.values = shown ((s.issuedBy x.t).advanceTo x.t).1)
    {sim : Simulation α} (h : frames fps fuel frame steps stage taken = .ok sim) :
    sim.final = held s.issuedAll.settle.1 ∧
      ∀ x ∈ sim.samples, x.values = shown ((s.issuedBy x.t).advanceTo x.t).1 := by
  -- What is carried from frame to frame: the stage is where the steps issued so far have led by
  -- now, and all samples taken show such stages.
  induction fuel generalizing frame issued steps stage taken start with
  | zero => cases h
  | succ fuel ih =>
    have harrived := inStep.arrived ordered le
    have hshows : ∀ x ∈ (⟨frameTime fps frame, shown ((issueDue (frameTime fps frame) steps
        stage).1.advanceTo (frameTime fps frame)).1⟩ :: taken : List (Sample α)),
        x.values = shown ((s.issuedBy x.t).advanceTo x.t).1 := by
      rw [List.forall_mem_cons, harrived]
      exact ⟨rfl, shows⟩
    unfold frames at h
    dsimp only at h
    split at h
    · cases h
    · split at h
      · next hover =>
        rw [Bool.and_eq_true, List.isEmpty_iff, beq_iff_eq] at hover
        have hidle := List.eq_nil_of_length_eq_zero hover.2
        cases h
        refine ⟨?_, fun x hx => hshows x (List.mem_reverse.mp hx)⟩
        exact inStep.held_arrived ordered le hover.1 hidle
      · exact ih (inStep.frame ordered le) (rising frame) hshows h

/-- A simulation that comes to its end has a usable rate and a script in order, and went through its
frames. -/
theorem of_simulate [LawfulTime α] {s : Script α} {fps : α} {sim : Simulation α}
    (h : s.simulate fps = .ok sim) :
    Options.usableDuration fps = true ∧ s.Ordered ∧
      frames fps frameLimit 0 s.steps s.opening [] = .ok sim := by
  unfold simulate at h
  split at h
  · cases h
  · next husable =>
    cases hcheck : s.check with
    | error problem =>
      rw [hcheck] at h
      cases h
    | ok _ =>
      rw [hcheck] at h
      exact ⟨by simpa using husable, ordered_of_check hcheck, h⟩

/-- The frames of a usable rate are doubles in order, from zero on. -/
theorem frameTime_rising {fps : Float} (usable : Options.usableDuration fps = true) :
    0.0 ≤ frameTime fps 0 ∧ ∀ n, frameTime fps n ≤ frameTime fps (n + 1) := by
  simp only [Options.usableDuration, Bool.and_eq_true, Bool.not_eq_true',
    decide_eq_false_iff_not] at usable
  obtain ⟨hfinite, hpos⟩ := usable
  refine ⟨?_, fun n => ?_⟩
  · exact Double.zero_le_div (Double.ofNat_le_ofNat (Nat.le_refl 0)).1 hfinite hpos
  · obtain ⟨hzero, hle⟩ := Double.ofNat_le_ofNat (Nat.le_succ n)
    exact Double.div_le_div_of_nonneg hzero hle hfinite hpos

/-- A fade, and another one that is put off while the first one runs. -/
def fadeTwice : Script Float :=
  ⟨.empty, [⟨0.0, Options.standard, [.fade 0.5]⟩,
    ⟨0.05, { Options.standard with delay := 0.08 }, [.fade 0.0]⟩]⟩

end Script

end LayerAnimation
