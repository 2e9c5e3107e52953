import LayerAnimation.Proofs.RoundTrip
import LayerAnimation.Proofs.TimeLimit

/-!
# What a script must be

A script is checked step by step, and in each step number by number; the first objection is the one
that is reported.  Here the checks are compared with plain predicates on the numbers of a script.

- `Easing.Usable`, `Options.Usable`, `Step.Usable` and `Script.Usable` say what is accepted.  Their
  order is that of the numbers, so a not-a-number has no place in any of them.
- `Easing.Refused`, `Options.Refused`, `Step.Refused` and `Script.Refused` relate what is not
  accepted to the one problem that is reported.
- `Decides` is what a check has to do with two such predicates; every check has a lemma of that form.
- `Script.check_first_fault` is the statement for scripts, their texts and their simulations.
-/

namespace LayerAnimation

open LawfulTime

variable {α : Type}

/-! ## §1 Checks and what they decide -/

/-- A check passes exactly what is accepted and reports exactly the problems of what is refused. -/
structure Decides {ε : Type} (check : Except ε Unit) (accepted : Prop) (refused : ε → Prop) :
    Prop where
  ok_iff : check = .ok () ↔ accepted
  error_iff : ∀ p, check = .error p ↔ refused p

namespace Decides

variable {ε : Type} {check : Except ε Unit} {accepted : Prop} {refused : ε → Prop}

/-- It is enough to know the outcome of each case, when every case is accepted or refused. -/
theorem of_cases (ok : accepted → check = .ok ()) (error : ∀ p, refused p → check = .error p)
    (cases : accepted ∨ ∃ p, refused p) : Decides check accepted refused := by
  rcases cases with haccepted | ⟨p, hrefused⟩
  · have hok := ok haccepted
    refine ⟨iff_of_true hok haccepted, fun q => iff_of_false (by simp [hok]) fun h => ?_⟩
    rw [error q h] at hok
    cases hok
  · have herror := error p hrefused
    refine ⟨iff_of_false (by simp [herror]) fun h => ?_, fun q => ⟨fun h => ?_, error q⟩⟩
    · rw [ok h] at herror
      cases herror
    · obtain rfl : p = q := Except.error.inj (herror.symm.trans h)
      exact hrefused

theorem accepted_or_refused (h : Decides check accepted refused) : accepted ∨ ∃ p, refused p := by
  cases hcheck : check with
  | ok => exact .inl (h.ok_iff.mp hcheck)
  | error p => exact .inr ⟨p, (h.error_iff p).mp hcheck⟩

end Decides

/-! ## §2 Usable parts -/

/-- A finite number greater than zero. -/
def Options.IsDuration [Scalar α] (d : α) : Prop :=
  Scalar.isFinite d = true ∧ 0.0 < d

/-- A finite number from zero on. -/
def Options.IsDelay [Scalar α] (d : α) : Prop :=
  Scalar.isFinite d = true ∧ 0.0 ≤ d

/-- Control points all of whose coordinates are finite. -/
def ControlPoints.Finite [Scalar α] (c : ControlPoints α) : Prop :=
  (Scalar.isFinite c.x₁ = true ∧ Scalar.isFinite c.y₁ = true) ∧
    Scalar.isFinite c.x₂ = true ∧ Scalar.isFinite c.y₂ = true

/-- Control points neither of which lies before the start or after the end. -/
def ControlPoints.Inside [Scalar α] (c : ControlPoints α) : Prop :=
  ((0.0 : α) ≤ c.x₁ ∧ c.x₁ ≤ (1.0 : α)) ∧ (0.0 : α) ≤ c.x₂ ∧ c.x₂ ≤ (1.0 : α)

structure Easing.Usable [Scalar α] (e : Easing α) : Prop where
  finite : e.controlPoints.Finite
  inside : e.controlPoints.Inside

structure Options.Usable [Scalar α] (o : Options α) : Prop where
  duration : IsDuration o.duration
  delay : IsDelay o.delay
  easing : o.easing.Usable

structure Step.Usable [Scalar α] (step : Step α) : Prop where
  time : Options.IsDelay step.time
  options : step.options.Usable

/-- The steps are usable, and of any two of them the one in front does not begin later. -/
structure Script.Usable [Scalar α] (s : Script α) : Prop where
  steps : ∀ step ∈ s.steps, step.Usable
  sorted : s.steps.Pairwise fun earlier later => earlier.time ≤ later.time

/-! ## §3 The problem that is reported -/

/-- That a control point is not finite is reported before where it lies. -/
inductive Easing.Refused [Scalar α] (e : Easing α) : Problem α → Prop where
  | notFinite (h : ¬ e.controlPoints.Finite) : Refused e .controlPointNotFinite
  | outside (finite : e.controlPoints.Finite) (h : ¬ e.controlPoints.Inside) :
      Refused e .controlPointOutside

/-- The duration is looked at first, then the delay, and the curve last. -/
inductive Options.Refused [Scalar α] (o : Options α) : Problem α → Prop where
  | duration (h : ¬ IsDuration o.duration) : Refused o (.duration o.duration)
  | delay (duration : IsDuration o.duration) (h : ¬ IsDelay o.delay) : Refused o (.delay o.delay)
  | easing {p : Problem α} (duration : IsDuration o.duration) (delay : IsDelay o.delay)
      (h : o.easing.Refused p) : Refused o p

/-- The time of a step is looked at before its options.  What is reported names the step. -/
inductive Step.Refused [Scalar α] (index : Nat) (step : Step α) : Problem α → Prop where
  | time (h : ¬ Options.IsDelay step.time) : Refused index step (.startTime index)
  | options {cause : Problem α} (time : Options.IsDelay step.time)
      (h : step.options.Refused cause) : Refused index step (.options index cause)

/-- The first step that is not usable is reported; only when there is none, that the steps are out
of order. -/
inductive Script.Refused [Scalar α] (s : Script α) : Problem α → Prop where
  | step {before after : List (Step α)} {step : Step α} {p : Problem α}
      (split : s.steps = before ++ step :: after) (earlier : ∀ other ∈ before, other.Usable)
      (h : step.Refused before.length p) : Refused s p
  | order (steps : ∀ step ∈ s.steps, step.Usable)
      (h : ¬ s.steps.Pairwise fun earlier later => earlier.time ≤ later.time) :
      Refused s .unsorted

/-- What is reported of a step begins with its place in the script. -/
theorem Step.Refused.message {index : Nat} {step : Step Float} {p : Problem Float}
    (h : step.Refused index p) : ∃ text, p.message = "step " ++ toString index ++ ": " ++ text := by
  cases h with
  | time =>
    have hcolon : ": 'at' must be finite and >= 0" = ": " ++ "'at' must be finite and >= 0" := by
      decide
    exact ⟨_, (congrArg ("step " ++ toString index ++ ·) hcolon).trans String.append_assoc.symm⟩
  | options _ h => exact ⟨_, rfl⟩

/-! ## §4 Parts -/

section Parts

variable [Scalar α]

theorem Easing.decides_check (e : Easing α) : Decides e.check e.Usable e.Refused := by
  have hfinite : (Scalar.isFinite e.controlPoints.x₁ && Scalar.isFinite e.controlPoints.y₁ &&
      Scalar.isFinite e.controlPoints.x₂ && Scalar.isFinite e.controlPoints.y₂) = true ↔
      e.controlPoints.Finite := by
    simp only [Bool.and_eq_true, ControlPoints.Finite, and_assoc]
  -- A curve is usable, or it has one of two faults of which the second is looked for only without
  -- the first.
  refine .of_cases ?_ ?_ ?_
  · intro h
    simp only [check, if_pos (hfinite.mpr h.finite)]
    exact if_pos h.inside
  · rintro p (h | ⟨finite, h⟩)
    · exact if_neg (mt hfinite.mp h)
    · simp only [check, if_pos (hfinite.mpr finite)]
      exact if_neg h
  · by_cases finite : e.controlPoints.Finite
    · by_cases inside : e.controlPoints.Inside
      · exact .inl ⟨finite, inside⟩
      · exact .inr ⟨_, .outside finite inside⟩
    · exact .inr ⟨_, .notFinite finite⟩

variable [LawfulTime α]

theorem Options.usableDuration_iff {d : α} : usableDuration d = true ↔ IsDuration d := by
  simp only [usableDuration, IsDuration, Bool.and_eq_true, Bool.not_eq_true',
    decide_eq_false_iff_not]
  refine and_congr_right fun finite => ⟨fun h => ?_, fun h => (lt_iff.mp h).2⟩
  exact lt_iff.mpr ⟨le_of_not_le (le_self_of_isFinite finite) zero_le_zero h, h⟩

theorem Options.usableDelay_iff {d : α} : usableDelay d = true ↔ IsDelay d := by
  simp only [usableDelay, IsDelay, Bool.and_eq_true, Bool.not_eq_true', decide_eq_false_iff_not]
  refine and_congr_right fun finite => ⟨fun h => ?_, fun h hlt => (lt_iff.mp hlt).2 h⟩
  exact le_of_not_lt (le_self_of_isFinite finite) zero_le_zero h

theorem Options.decides_check (o : Options α) : Decides o.check o.Usable o.Refused := by
  have hcurve := o.easing.decides_check
  -- The duration, the delay and the curve are checked in this order, and the first fault is
  -- reported.
  refine .of_cases ?_ ?_ ?_
  · intro h
    simp [check, usableDuration_iff.mpr h.duration, usableDelay_iff.mpr h.delay,
      hcurve.ok_iff.mpr h.easing]
  · rintro p (h | ⟨duration, h⟩ | ⟨duration, delay, h⟩)
    · simp [check, mt usableDuration_iff.mp h]
    · simp [check, usableDuration_iff.mpr duration, mt usableDelay_iff.mp h]
    · simp [check, usableDuration_iff.mpr duration, usableDelay_iff.mpr delay,
        (hcurve.error_iff p).mpr h]
  · by_cases duration : IsDuration o.duration
    · by_cases delay : IsDelay o.delay
      · rcases hcurve.accepted_or_refused with easing | ⟨p, h⟩
        · exact .inl ⟨duration, delay, easing⟩
        · exact .inr ⟨p, .easing duration delay h⟩
      · exact .inr ⟨_, .delay duration delay⟩
    · exact .inr ⟨_, .duration duration⟩

theorem Script.decides_checkStep (index : Nat) (step : Step α) :
    Decides (checkStep index step) step.Usable (step.Refused index) := by
  have hoptions := step.options.decides_check
  refine .of_cases ?_ ?_ ?_
  · intro h
    simp [checkStep, Options.usableDelay_iff.mpr h.time, hoptions.ok_iff.mpr h.options]
  · rintro p (h | ⟨time, h⟩)
    · simp [checkStep, mt Options.usableDelay_iff.mp h]
    · simp [checkStep, Options.usableDelay_iff.mpr time, (hoptions.error_iff _).mpr h]
  · by_cases time : Options.IsDelay step.time
    · rcases hoptions.accepted_or_refused with options | ⟨p, h⟩
      · exact .inl ⟨time, options⟩
      · exact .inr ⟨_, .options time h⟩
    · exact .inr ⟨_, .time time⟩

end Parts

/-! ## §5 Scripts -/

namespace Script

section Scripts

variable [Scalar α] [LawfulTime α]

/-- The first of some steps that is not usable is reported, under its place in the script. -/
theorem decides_checkSteps (index : Nat) (steps : List (Step α)) :
    Decides (checkSteps index steps) (∀ step ∈ steps, step.Usable) fun p =>
      ∃ before step after, steps = before ++ step :: after ∧
        (∀ other ∈ before, other.Usable) ∧ step.Refused (index + before.length) p := by
  induction steps generalizing index with
  | nil => exact .of_cases (fun _ => rfl) (by simp) (.inl (List.forall_mem_nil _))
  | cons first rest ih =>
    have hfirst := decides_checkStep index first
    have hrest := ih (index + 1)
    -- A usable first step leaves the outcome to the others.
    have hskip (h : first.Usable) : checkSteps index (first :: rest) = checkSteps (index + 1) rest := by
      rw [checkSteps, hfirst.ok_iff.mpr h]
      rfl
    refine .of_cases ?_ ?_ ?_
    · intro h
      obtain ⟨husable, hothers⟩ := List.forall_mem_cons.mp h
      rw [hskip husable, hrest.ok_iff]
      exact hothers
    · rintro p ⟨_ | ⟨other, before⟩, step, after, hsplit, earlier, h⟩
      · obtain ⟨rfl, rfl⟩ := List.cons_eq_cons.mp hsplit
        rw [checkSteps, (hfirst.error_iff p).mpr h]
        rfl
      · obtain ⟨rfl, rfl⟩ := List.cons_eq_cons.mp hsplit
        obtain ⟨husable, hothers⟩ := List.forall_mem_cons.mp earlier
        rw [hskip husable, hrest.error_iff]
        refine ⟨before, step, after, rfl, hothers, ?_⟩
        rwa [Nat.add_assoc, Nat.add_comm 1]
    · rcases hfirst.accepted_or_refused with husable | ⟨p, h⟩
      · rcases hrest.accepted_or_refused with hothers | ⟨p, before, step, after, rfl, earlier, h⟩
        · exact .inl (List.forall_mem_cons.mpr ⟨husable, hothers⟩)
        · refine .inr ⟨p, first :: before, step, after, rfl,
            List.forall_mem_cons.mpr ⟨husable, earlier⟩, ?_⟩
          rwa [List.length_cons, Nat.add_comm before.length, ← Nat.add_assoc]
      · exact .inr ⟨p, [], first, rest, rfl, List.forall_mem_nil _, h⟩

/-- Neighbours in order are enough for all steps to be in order. -/
theorem isSorted_iff {steps : List (Step α)} :
    isSorted steps = true ↔ steps.Pairwise fun earlier later => earlier.time ≤ later.time := by
  refine ⟨pairwise_of_isSorted, fun h => ?_⟩
  induction h with
  | nil => rfl
  | @cons first rest hfirst _ ih =>
    cases rest with
    | nil => rfl
    | cons second rest =>
      rw [isSorted, ih, Bool.and_true, decide_eq_true_eq]
      exact hfirst second List.mem_cons_self

omit [LawfulTime α] in
theorem check_of_checkSteps {s : Script α} (h : checkSteps 0 s.steps = .ok ()) :
    s.check = if isSorted s.steps then .ok () else .error .unsorted := by
  rw [check, h]
  rfl

theorem decides_check (s : Script α) : Decides s.check s.Usable s.Refused := by
  have hsteps := decides_checkSteps 0 s.steps
  refine .of_cases ?_ ?_ ?_
  · intro h
    rw [check_of_checkSteps (hsteps.ok_iff.mpr h.steps), if_pos (isSorted_iff.mpr h.sorted)]
  · rintro p (⟨split, earlier, h⟩ | ⟨steps, h⟩)
    · have herror := (hsteps.error_iff p).mpr ⟨_, _, _, split, earlier, by rwa [Nat.zero_add]⟩
      rw [check, herror]
      rfl
    · rw [check_of_checkSteps (hsteps.ok_iff.mpr steps), if_neg (mt isSorted_iff.mp h)]
  · rcases hsteps.accepted_or_refused with steps | ⟨p, before, step, after, split, earlier, h⟩
    · by_cases sorted : s.steps.Pairwise fun earlier later => earlier.time ≤ later.time
      · exact .inl ⟨steps, sorted⟩
      · exact .inr ⟨_, .order steps sorted⟩
    · rw [Nat.zero_add] at h
      exact .inr ⟨p, .step split earlier h⟩

/-! ## §6 Simulations -/

omit [LawfulTime α] in
/-- Frames come to their end or are given up; they have no objection to the script. -/
theorem eq_of_frames_eq_error {fps : α} {fuel frame : Nat} {steps : List (Step α)}
    {stage : PlainStage α} {taken : List (Sample α)} {p : Problem α}
    (h : frames fps fuel frame steps stage taken = .error p) :
    p = .unfinished ∨ p = .outOfFrames := by
  induction fuel generalizing frame steps stage taken with
  | zero => exact .inr (Except.error.inj h).symm
  | succ fuel ih =>
    unfold frames at h
    dsimp only at h
    split at h
    · exact .inl (Except.error.inj h).symm
    · split at h
      · cases h
      · exact ih h

omit [LawfulTime α] in
/-- A script that is refused is not simulated. -/
theorem simulate_of_check_eq_error {s : Script α} {fps : α} {p : Problem α}
    (usable : Options.usableDuration fps = true) (h : s.check = .error p) :
    s.simulate fps = .error p := by
  simp only [simulate, usable, Bool.not_true, Bool.false_eq_true, ↓reduceIte, h]
  rfl

end Scripts

/-- The check passes exactly the usable scripts.  Of any other script it reports the first step that
is not usable, with the first of its faults and under its place, or that the usable steps are out of
order.  A text is read as a script exactly if it decodes to that script and the script is usable.  At
a usable rate a simulation fails with the problem of a script that is not usable, and a usable script
it can only give up. -/
theorem check_first_fault (s : Script Float) :
    (s.check = .ok () ↔ s.Usable) ∧
    (∀ p, s.check = .error p ↔ s.Refused p) ∧
    (∀ index (step : Step Float) p, step.Refused index p →
      ¬ step.Usable ∧ ∃ text, p.message = "step " ++ toString index ++ ": " ++ text) ∧
    (∀ text, parse text = .ok s ↔
      (Format.script Format.number).parse text = .ok s ∧ s.Usable) ∧
    ∀ fps, Options.IsDuration fps →
      (∀ p, s.Refused p → s.simulate fps = .error p) ∧
      (s.Usable → ∀ p, s.simulate fps = .error p → p = .unfinished ∨ p = .outOfFrames) := by
  have hcheck := s.decides_check
  refine ⟨hcheck.ok_iff, hcheck.error_iff, fun index step p h => ⟨fun husable => ?_, h.message⟩,
    fun text => ?_, fun fps hfps => ⟨fun p h => ?_, fun h p hsim => ?_⟩⟩
  · have hstep := decides_checkStep index step
    have hok := hstep.ok_iff.mpr husable
    rw [(hstep.error_iff p).mpr h] at hok
    cases hok
  · rw [parse_eq_ok, hcheck.ok_iff]
  · exact simulate_of_check_eq_error (Options.usableDuration_iff.mpr hfps)
      ((hcheck.error_iff p).mpr h)
  · rw [simulate_of_check (hcheck.ok_iff.mpr h) (Options.usableDuration_iff.mpr hfps)] at hsim
    exact eq_of_frames_eq_error hsim

/-- A script whose steps go back in time and two of which are not usable, the first of them twice. -/
def backAndForth : Script Float :=
  ⟨.empty, [⟨1.0, Options.standard, [.fade 0.5]⟩,
    ⟨0.5, { Options.standard with duration := 0.0 / 0.0, delay := -1.0 }, [.fade 0.0]⟩,
    ⟨-1.0, Options.standard, [.fade 1.0]⟩]⟩

/-- The first objection to the second step is reported, and nothing of it is simulated. -/
theorem check_first_fault_backAndForth :
    Options.IsDuration (30.0 : Float) ∧ backAndForth.Refused (.options 1 (.duration (0.0 / 0.0))) ∧
      backAndForth.check = .error (.options 1 (.duration (0.0 / 0.0))) ∧
      backAndForth.simulate 30.0 = .error (.options 1 (.duration (0.0 / 0.0))) := by
  obtain ⟨-, herror, -, -, hsimulate⟩ := check_first_fault backAndForth
  have hfps : Options.IsDuration (30.0 : Float) := ⟨rfl, by decide +kernel⟩
  have hcheck : backAndForth.check = .error (.options 1 (.duration (0.0 / 0.0))) := rfl
  have hrefused := (herror _).mp hcheck
  exact ⟨hfps, hrefused, hcheck, (hsimulate 30.0 hfps).1 _ hrefused⟩

end Script

end LayerAnimation
