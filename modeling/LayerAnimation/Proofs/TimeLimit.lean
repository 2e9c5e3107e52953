import LayerAnimation.Proofs.Frames
import LayerAnimation.Proofs.LastAttached

/-!
# The time limit of a simulation

A simulation that has not come to its end within the time limit is given up as unfinished.  Whether
that says something about the script depends on its frames: the limit is looked at when a frame is
about to be taken, and what happens between the last frame within the limit and the limit itself is
seen by no frame.

- `Script.OverAt` says that the script by itself has nothing left at a moment: every step is issued
  and no job waits.  It is what a frame finds out (`Script.InStep.over_iff`).
- `Script.UnfinishedAt` says that the script by itself is still at work at a moment: a step is to
  come, a motion that was put off has not started, or a track runs.  A completion whose tracks were
  all replaced waits without any work being left, so the two do not exclude everything between.
- `Script.simulate_unfinished_iff` is the exact condition for giving up, and
  `Script.simulate_unfinished_sparse` a script that is given up though nothing of it is left.
-/

namespace LayerAnimation

open LawfulTime

variable {α : Type}

theorem Timer.completion?_eq_none_iff {u : Timer α Empty} :
    u.completion? = none ↔ ∃ d, u.job = .deferred d := by
  unfold completion?
  cases u.job with
  | completion c => simp
  | deferred d => simp
  | routine r => exact r.elim

namespace Script

open PlainStage

variable [Scalar α]

/-! ## §1 What is left of a script -/

/-- The script by itself has nothing left at a moment: every step is issued and no job waits. -/
def OverAt (s : Script α) (t : α) : Prop :=
  (∀ step ∈ s.steps, step.time ≤ t) ∧ ((s.issuedBy t).advanceTo t).1.timers = []

instance (s : Script α) (t : α) : Decidable (s.OverAt t) :=
  decidable_of_iff
    ((∀ step ∈ s.steps, step.time ≤ t) ∧ ((s.issuedBy t).advanceTo t).1.timers.isEmpty = true)
    (by rw [OverAt, List.isEmpty_iff])

/-- The script by itself is at work at a moment: a step is still to come, a motion that was put off
has not started, or a track runs. -/
def UnfinishedAt (s : Script α) (t : α) : Prop :=
  (∃ step ∈ s.steps, t < step.time) ∨
  (∃ u ∈ ((s.issuedBy t).advanceTo t).1.timers, ∃ d, u.job = .deferred d) ∨
  ∃ k p, ((s.issuedBy t).advanceTo t).1.playing? stageLayer k = some p

instance (s : Script α) (t : α) : Decidable (s.UnfinishedAt t) :=
  decidable_of_iff
    ((∃ step ∈ s.steps, t < step.time) ∨
      (∃ u ∈ ((s.issuedBy t).advanceTo t).1.timers, u.completion? = none) ∨
      ∃ k ∈ Attribute.all, ((s.issuedBy t).advanceTo t).1.playing? stageLayer k ≠ none)
    (by simp only [UnfinishedAt, Timer.completion?_eq_none_iff, Option.ne_none_iff_exists',
      Attribute.mem_all, true_and])

theorem linked_opening (s : Script α) : Stage.Linked s.opening 0 := by
  have hstage : Stage.Linked (Stage.ofLayers [.ofValues s.initial]) 0 := by
    apply linked_ofLayers
    intro l hl
    rw [List.mem_singleton.mp hl]
    rfl
  exact hstage.transitions (transitions_perform (.watch stageLayer) _ 0)

theorem linked_foldl_issue {stage : PlainStage α} (h : Stage.Linked stage 0)
    (steps : List (Step α)) : Stage.Linked (steps.foldl issue stage) 0 := by
  induction steps generalizing stage with
  | nil => exact h
  | cons step steps ih =>
    apply ih
    have harrived := h.transitions (transitions_perform (.advanceTo step.time) _ 0)
    exact harrived.transitions
      (transitions_perform (.motion stageLayer step.intents step.options) _ 0)

section Over

variable [LawfulTime α] {s : Script α} {t d : α}

/-- What is over stays over. -/
theorem OverAt.mono (h : s.OverAt t) (le : t ≤ d) : s.OverAt d := by
  obtain ⟨hsteps, hidle⟩ := h
  have hlater : ∀ step ∈ s.steps, step.time ≤ d := fun step hstep => le_trans (hsteps step hstep) le
  have hissued : s.issuedBy d = s.issuedBy t := by
    rw [issuedBy, issuedBy, List.filter_eq_self.mpr, List.filter_eq_self.mpr]
    · simpa using hsteps
    · simpa using hlater
  refine ⟨hlater, ?_⟩
  have htimely : (s.issuedBy t).Timely := timely_foldl_issue s.timely_opening _
  have hunheld : (s.issuedBy t).Unheld := unheld_foldl_issue s.unheld_opening _
  -- From the earlier moment on there is no job that could start.
  have hrest : ((s.issuedBy t).advanceTo t).1.popDue d = none := by
    rw [Stage.popDue_eq_none_iff, hidle]
    intro u us hcons
    cases hcons
  rw [hissued, ← advanceTo_advanceTo htimely hunheld le, advanceTo_eq, runDue_of_idle hrest]
  exact hidle

/-- Where a script is over no work is left. -/
theorem OverAt.not_unfinishedAt (h : s.OverAt t) : ¬ s.UnfinishedAt t := by
  obtain ⟨hsteps, hidle⟩ := h
  rintro (⟨step, hstep, hlt⟩ | ⟨u, hu, -⟩ | ⟨k, p, hp⟩)
  · exact (lt_iff.mp hlt).2 (hsteps step hstep)
  · rw [hidle] at hu
    cases hu
  · have hlinked := (linked_foldl_issue s.linked_opening (s.steps.filter (·.time ≤ t))).transitions
      (transitions_perform (.advanceTo t) _ 0)
    have hnone : ((s.issuedBy t).advanceTo t).1.playing? stageLayer k = none :=
      playing?_of_timers_eq_nil hlinked hidle stageLayer k
    rw [hnone] at hp
    cases hp

/-! ## §2 What a frame finds out -/

/-- At a frame no step is left and no job waits exactly if the script is over. -/
theorem InStep.over_iff {start : α} {issued steps : List (Step α)} {stage : PlainStage α}
    (h : InStep s start issued steps stage) (ordered : s.Ordered) (le : start ≤ t) :
    ((issueDue t steps stage).2.isEmpty
        && ((issueDue t steps stage).1.advanceTo t).1.pending == 0) = true ↔ s.OverAt t := by
  rw [Bool.and_eq_true, List.isEmpty_iff, beq_iff_eq, Stage.pending, List.length_eq_zero_iff,
    h.arrived ordered le, OverAt]
  apply and_congr_left
  intro _
  -- No step is left exactly if those that were still to come are issued now.
  rw [issueDue_eq, List.dropWhile_eq_nil_iff, h.split]
  simp only [decide_eq_true_eq, List.mem_append]
  constructor
  · rintro hsteps step (hissued | hrest)
    · exact le_trans (h.past step hissued) le
    · exact hsteps step hrest
  · exact fun hsteps step hstep => hsteps step (.inr hstep)

/-! ## §3 The frame loop -/

variable {fps : α}

/-- The frames are given up as unfinished exactly if one of them lies behind the time limit and the
script is over at none before. -/
theorem frames_eq_unfinished_iff (ordered : s.Ordered)
    (rising : ∀ n, frameTime fps n ≤ frameTime fps (n + 1)) {fuel frame : Nat}
    {issued steps : List (Step α)} {stage : PlainStage α} {taken : List (Sample α)} {start : α}
    (inStep : InStep s start issued steps stage) (le : start ≤ frameTime fps frame) :
    frames fps fuel frame steps stage taken = .error .unfinished ↔
      ∃ n, frame ≤ n ∧ n < frame + fuel ∧ timeLimit < frameTime fps n ∧
        ∀ m, frame ≤ m → m < n → ¬ s.OverAt (frameTime fps m) := by
  induction fuel generalizing frame issued steps stage taken start with
  | zero =>
    constructor
    · intro h
      cases h
    · rintro ⟨n, hle, hlt, -⟩
      omega
  | succ fuel ih =>
    have hover := inStep.over_iff ordered le
    unfold frames
    dsimp only
    by_cases hlimit : timeLimit < frameTime fps frame
    · rw [if_pos hlimit]
      refine iff_of_true rfl ⟨frame, Nat.le_refl _, by omega, hlimit, ?_⟩
      intro m hle hlt
      omega
    · rw [if_neg hlimit]
      by_cases hend : s.OverAt (frameTime fps frame)
      · rw [if_pos (hover.mpr hend)]
        apply iff_of_false
        · intro h
          cases h
        · -- A frame behind the limit would be a later one.
          rintro ⟨n, hle, -, hlater, hbefore⟩
          rcases Nat.eq_or_lt_of_le hle with rfl | hlt
          · exact hlimit hlater
          · exact hbefore frame (Nat.le_refl _) hlt hend
      · rw [if_neg (mt hover.mp hend), ih (inStep.frame ordered le) (rising frame)]
        constructor
        · rintro ⟨n, hle, hlt, hlater, hbefore⟩
          refine ⟨n, by omega, by omega, hlater, fun m hm hmn => ?_⟩
          rcases Nat.eq_or_lt_of_le hm with rfl | hm
          · exact hend
          · exact hbefore m hm hmn
        · rintro ⟨n, hle, hlt, hlater, hbefore⟩
          rcases Nat.eq_or_lt_of_le hle with rfl | hle
          · exact absurd hlater hlimit
          · exact ⟨n, hle, by omega, hlater, fun m hm hmn => hbefore m (by omega) hmn⟩

/-- Frames that come to their end find the script over at one of them within the time limit. -/
theorem exists_overAt_of_frames (ordered : s.Ordered)
    (rising : ∀ n, frameTime fps n ≤ frameTime fps (n + 1)) {fuel frame : Nat}
    {issued steps : List (Step α)} {stage : PlainStage α} {taken : List (Sample α)} {start : α}
    (inStep : InStep s start issued steps stage) (le : start ≤ frameTime fps frame)
    {sim : Simulation α} (h : frames fps fuel frame steps stage taken = .ok sim) :
    ∃ n, ¬ timeLimit < frameTime fps n ∧ s.OverAt (frameTime fps n) := by
  induction fuel generalizing frame issued steps stage taken start with
  | zero => cases h
  | succ fuel ih =>
    unfold frames at h
    dsimp only at h
    split at h
    · cases h
    · next hlimit =>
      split at h
      · next hend => exact ⟨frame, hlimit, (inStep.over_iff ordered le).mp hend⟩
      · exact ih (inStep.frame ordered le) (rising frame) h

end Over

/-! ## §4 Giving up -/

/-- A script that is started goes through its frames. -/
theorem simulate_of_check {s : Script α} {fps : α} (valid : s.check = .ok ())
    (usable : Options.usableDuration fps = true) :
    s.simulate fps = frames fps frameLimit 0 s.steps s.opening [] := by
  simp only [simulate, usable, Bool.not_true, Bool.false_eq_true, ↓reduceIte, valid]
  rfl

/-- At a usable rate a script is given up as unfinished exactly if some frame lies behind the time
limit and the script is over at none before. -/
theorem simulate_eq_unfinished_iff {s : Script Float} {fps : Float} (valid : s.check = .ok ())
    (usable : Options.usableDuration fps = true) :
    s.simulate fps = .error .unfinished ↔
      ∃ n < frameLimit, timeLimit < frameTime fps n ∧ ∀ m < n, ¬ s.OverAt (frameTime fps m) := by
  have hordered := ordered_of_check valid
  obtain ⟨hzero, hrising⟩ := frameTime_rising usable
  rw [simulate_of_check valid usable,
    frames_eq_unfinished_iff hordered hrising (inStep_opening hordered) hzero]
  simp

/-- A script that comes to its end at some rate is over by itself at the time limit. -/
theorem overAt_of_simulate {s : Script Float} {fps : Float} {sim : Simulation Float}
    (h : s.simulate fps = .ok sim) : s.OverAt timeLimit := by
  obtain ⟨husable, hordered, hframes⟩ := of_simulate h
  obtain ⟨hzero, hrising⟩ := frameTime_rising husable
  obtain ⟨n, hlimit, hover⟩ :=
    exists_overAt_of_frames hordered hrising (inStep_opening hordered) hzero hframes
  apply hover.mono
  exact le_of_not_lt (by decide +kernel) (le_left (hrising n)) hlimit

/-- At a usable rate a script that passes its check is given up as unfinished exactly if the frames
come past the time limit and none of them before has found the script over, even if the script is
over by itself long before the limit.  The other way round there is no doubt: a script that is still
at work at the limit is not over, and one that is not over there comes to its end at no rate. -/
theorem simulate_unfinished_iff {s : Script Float} {fps : Float} (valid : s.check = .ok ())
    (usable : Options.usableDuration fps = true) :
    (s.simulate fps = .error .unfinished ↔
      ∃ n < frameLimit, timeLimit < frameTime fps n ∧ ∀ m < n, ¬ s.OverAt (frameTime fps m)) ∧
    (s.UnfinishedAt timeLimit → ¬ s.OverAt timeLimit) ∧
    (¬ s.OverAt timeLimit → ∀ fps' sim, s.simulate fps' ≠ .ok sim) := by
  refine ⟨simulate_eq_unfinished_iff valid usable, ?_, ?_⟩
  · intro hunfinished hover
    exact hover.not_unfinishedAt hunfinished
  · intro hwaits fps' sim hsim
    exact hwaits (overAt_of_simulate hsim)

/-- A script with one fade that is over soon. -/
def briefFade : Script Float :=
  ⟨.empty, [⟨0.0, Options.standard, [.fade 0.5]⟩]⟩

/-- One frame in ten thousand seconds sees the fade begin, and the next one is past the limit. -/
theorem briefFade_given_up :
    ∃ n < frameLimit, timeLimit < frameTime (0.0001 : Float) n ∧
      ∀ m < n, ¬ briefFade.OverAt (frameTime 0.0001 m) := by
  refine ⟨1, by decide +kernel, by decide +kernel, fun m hm => ?_⟩
  obtain rfl : m = 0 := by omega
  decide +kernel

/-- So the fade is given up at this rate. -/
theorem simulate_unfinished_iff_briefFade :
    briefFade.check = .ok () ∧ Options.usableDuration (0.0001 : Float) = true ∧
      briefFade.simulate 0.0001 = .error .unfinished := by
  have hvalid : briefFade.check = .ok () := rfl
  have husable : Options.usableDuration (0.0001 : Float) = true := by decide +kernel
  exact ⟨hvalid, husable, (simulate_unfinished_iff hvalid husable).1.mpr briefFade_given_up⟩

/-- A fade of more than an hour that is replaced by a short one at once. -/
def replacedFade : Script Float :=
  ⟨.empty, [⟨0.0, { Options.standard with duration := 4000.0 }, [.fade 0.0]⟩,
    ⟨0.0, Options.standard, [.fade 0.5]⟩]⟩

/-- The brief fade is given up as unfinished at a low rate, though nothing of it is left at the time
limit, and at a higher rate it comes to its end.  The replaced fade comes to its end at no rate,
though nothing is at work at the limit: a completion that has nothing left to commit still waits. -/
theorem simulate_unfinished_sparse :
    (briefFade.check = .ok () ∧ Options.usableDuration (0.0001 : Float) = true ∧
      briefFade.simulate 0.0001 = .error .unfinished ∧ ¬ briefFade.UnfinishedAt timeLimit ∧
      ∃ sim, briefFade.simulate 10.0 = .ok sim) ∧
    replacedFade.check = .ok () ∧ ¬ replacedFade.UnfinishedAt timeLimit ∧
      ∀ fps sim, replacedFade.simulate fps ≠ .ok sim := by
  have hvalid : briefFade.check = .ok () := rfl
  have husable : Options.usableDuration (0.0001 : Float) = true := by decide +kernel
  have hover : briefFade.OverAt timeLimit := by decide +kernel
  have hend : (briefFade.simulate 10.0).isOk = true := by decide +kernel
  have hwaits : ¬ replacedFade.OverAt timeLimit := by decide +kernel
  -- At the low rate the first frame after the start lies behind the limit already.
  refine ⟨⟨hvalid, husable, (simulate_eq_unfinished_iff hvalid husable).mpr briefFade_given_up,
    hover.not_unfinishedAt, ?_⟩, rfl, by decide +kernel, ?_⟩
  · cases h : briefFade.simulate 10.0 with
    | error problem =>
      rw [h] at hend
      cases hend
    | ok sim => exact ⟨sim, rfl⟩
  · intro fps sim hsim
    exact hwaits (overAt_of_simulate hsim)

end Script

end LayerAnimation
