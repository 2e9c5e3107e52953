import LayerAnimation.Proofs.Deferral
import LayerAnimation.Proofs.Retargeting
import LayerAnimation.Proofs.Validation

/-!
# Repairs and the check

Options are checked when they come from a script and repaired when a motion is made.  The rules are
the same ones: a repair replaces exactly what the check would refuse.

- `Options.repaired_eq_self_iff` and `Options.repaired_beq_self_iff` say of whole options that a
  repair changes nothing exactly if there is nothing to refuse.
- `Options.duration_kept_iff`, `Options.easing_kept_iff` and `Options.delay_kept_iff` say it of each
  part by itself.
- `Options.repairs_what_is_refused` puts them together with what follows for scripts: a script that
  passes its check is played with the very options that it holds.
-/

namespace LayerAnimation

open Double

/-! ## §1 Equal numbers -/

section Numbers

variable {x y : Float}

/-- A number that equals a finite one is finite. -/
theorem Double.isFinite_of_beq (h : (x == y) = true) (hx : x.isFinite = true) : y.isFinite = true := by
  obtain ⟨q, hq⟩ := exists_point_of_isFinite hx
  obtain ⟨a, b, ha, hb, rfl⟩ := Double.beq_iff.mp h
  obtain rfl : point q = a := Option.some.inj (hq.symm.trans ha)
  show y.toModel.unpack.isFinite = true
  unfold placeOf? at hb
  generalize y.toModel.unpack = f at hb
  rcases f with ⟨_ | _⟩ | _ | ⟨s⟩ | ⟨_ | _, m, e, hm⟩
  · exact absurd (Option.some.inj hb) (bot_lt_point q).ne
  · exact absurd (Option.some.inj hb) (point_lt_top q).ne'
  · cases hb
  · rfl
  · rfl
  · rfl

theorem Options.IsDuration.of_beq (h : (x == y) = true) (hx : IsDuration x) : IsDuration y :=
  ⟨isFinite_of_beq h hx.1, LawfulTime.lt_of_lt_of_le hx.2 (beq_iff_le.mp h).1⟩

theorem Options.IsDelay.of_beq (h : (x == y) = true) (hx : IsDelay x) : IsDelay y :=
  ⟨isFinite_of_beq h hx.1, LawfulTime.le_trans hx.2 (beq_iff_le.mp h).1⟩

end Numbers

theorem Easing.Usable.beq_self {e : Easing Float} (h : e.Usable) : (e == e) = true := by
  cases e with
  | bezier c =>
    obtain ⟨⟨hx₁, hy₁⟩, hx₂, hy₂⟩ := h.finite
    have hbeq : (Easing.bezier c == .bezier c)
        = (c.x₁ == c.x₁ && (c.y₁ == c.y₁ && (c.x₂ == c.x₂ && c.y₂ == c.y₂))) := rfl
    simp only [hbeq, Bool.and_eq_true]
    exact ⟨beq_self_of_isFinite hx₁, beq_self_of_isFinite hy₁, beq_self_of_isFinite hx₂,
      beq_self_of_isFinite hy₂⟩
  | _ => rfl

/-- The curve that takes the place of one that is not usable is none that equals it. -/
theorem Easing.Usable.of_beq {e : Easing Float} (h : (Easing.easeInOut == e) = true) : e.Usable := by
  cases e with
  | easeInOut => exact (Easing.easeInOut.decides_check).ok_iff.mp rfl
  | _ => cases h

/-! ## §2 Parts of options -/

namespace Options

/-- What replaces a part that is not usable is usable itself. -/
theorem usable_standard : (standard : Options Float).Usable :=
  (decides_check _).ok_iff.mp rfl

variable (o : Options Float)

theorem duration_repaired : (IsDuration o.duration ∧ o.repaired.duration = o.duration) ∨
    (¬ IsDuration o.duration ∧ o.repaired.duration = standardDuration) := by
  by_cases h : IsDuration o.duration
  · exact .inl ⟨h, if_pos (usableDuration_iff.mpr h)⟩
  · exact .inr ⟨h, if_neg (mt usableDuration_iff.mp h)⟩

theorem delay_repaired : (IsDelay o.delay ∧ o.repaired.delay = o.delay) ∨
    (¬ IsDelay o.delay ∧ o.repaired.delay = standardDelay) := by
  by_cases h : IsDelay o.delay
  · exact .inl ⟨h, if_pos (usableDelay_iff.mpr h)⟩
  · exact .inr ⟨h, if_neg (mt usableDelay_iff.mp h)⟩

theorem easing_repaired : (o.easing.Usable ∧ o.repaired.easing = o.easing) ∨
    (¬ o.easing.Usable ∧ o.repaired.easing = .easeInOut) := by
  have hcheck := o.easing.decides_check
  unfold repaired
  cases h : o.easing.check with
  | ok => exact .inl ⟨hcheck.ok_iff.mp h, rfl⟩
  | error p =>
    refine .inr ⟨fun husable => ?_, rfl⟩
    rw [hcheck.ok_iff.mpr husable] at h
    cases h

/-- Repaired options are usable, whatever they were before. -/
theorem usable_repaired : o.repaired.Usable where
  duration := by
    obtain ⟨h, heq⟩ | ⟨-, heq⟩ := o.duration_repaired
    · exact heq ▸ h
    · exact heq ▸ usable_standard.duration
  delay := by
    obtain ⟨h, heq⟩ | ⟨-, heq⟩ := o.delay_repaired
    · exact heq ▸ h
    · exact heq ▸ usable_standard.delay
  easing := by
    obtain ⟨h, heq⟩ | ⟨-, heq⟩ := o.easing_repaired
    · exact heq ▸ h
    · exact heq ▸ usable_standard.easing

theorem duration_kept_iff : o.repaired.duration = o.duration ↔ IsDuration o.duration :=
  ⟨fun h => h ▸ o.usable_repaired.duration, fun h => if_pos (usableDuration_iff.mpr h)⟩

theorem delay_kept_iff : o.repaired.delay = o.delay ↔ IsDelay o.delay :=
  ⟨fun h => h ▸ o.usable_repaired.delay, fun h => if_pos (usableDelay_iff.mpr h)⟩

theorem easing_kept_iff : o.repaired.easing = o.easing ↔ o.easing.Usable := by
  refine ⟨fun h => h ▸ o.usable_repaired.easing, fun h => ?_⟩
  obtain ⟨-, heq⟩ | ⟨hrefused, -⟩ := o.easing_repaired
  · exact heq
  · exact absurd h hrefused

/-! ## §3 Whole options -/

/-- A repair changes nothing exactly if there is nothing to refuse. -/
theorem repaired_eq_self_iff : o.repaired = o ↔ o.Usable :=
  ⟨fun h => h ▸ o.usable_repaired, fun h => repaired_of_check (o.decides_check.ok_iff.mpr h)⟩

/-- The program's own comparison finds out the same: a number that equals a usable one is usable. -/
theorem repaired_beq_self_iff : (o.repaired == o) = true ↔ o.Usable := by
  have hbeq : (o.repaired == o) = (o.repaired.duration == o.duration &&
      (o.repaired.easing == o.easing && o.repaired.delay == o.delay)) := rfl
  rw [hbeq, Bool.and_eq_true, Bool.and_eq_true]
  constructor
  · rintro ⟨hduration, heasing, hdelay⟩
    refine ⟨o.usable_repaired.duration.of_beq hduration, o.usable_repaired.delay.of_beq hdelay, ?_⟩
    obtain ⟨h, -⟩ | ⟨-, heq⟩ := o.easing_repaired
    · exact h
    · exact .of_beq (heq ▸ heasing)
  · intro h
    rw [o.repaired_eq_self_iff.mpr h]
    exact ⟨beq_self_of_isFinite h.duration.1, h.easing.beq_self, beq_self_of_isFinite h.delay.1⟩

/-! ## §4 Motions -/

/-- A motion with options that pass the check is made with these options: put off by their delay, or
made at once. -/
theorem motion_of_check {α κ σ : Type} [Scalar α] {o : Options α} (valid : o.check = .ok ())
    (s : Stage α κ σ) (id : LayerId) (intents : List (Intent α)) :
    s.motion id intents o = if (0.0 : α) < o.delay then (s.schedule id intents o, none)
      else s.perform id intents o.duration o.easing := by
  rw [Stage.motion, repaired_of_check valid]

/-- Repaired options pass the check.  A repair changes nothing exactly if the options pass the check
themselves, and it keeps each part exactly if that part passes among defaults; so a second repair
changes nothing.  Whatever a step of a script that passes its check holds, the motion is made with. -/
theorem repairs_what_is_refused {κ σ : Type} :
    (∀ o : Options Float, o.repaired.check = .ok () ∧ o.repaired.repaired = o.repaired) ∧
    (∀ o : Options Float, (o.check = .ok () ↔ o.repaired = o) ∧
      (o.check = .ok () ↔ (o.repaired == o) = true)) ∧
    (∀ o : Options Float,
      (o.repaired.duration = o.duration ↔
        ({ standard with duration := o.duration } : Options Float).check = .ok ()) ∧
      (o.repaired.easing = o.easing ↔
        ({ standard with easing := o.easing } : Options Float).check = .ok ()) ∧
      (o.repaired.delay = o.delay ↔
        ({ standard with delay := o.delay } : Options Float).check = .ok ())) ∧
    ∀ s : Script Float, s.check = .ok () → ∀ step ∈ s.steps, ∀ (stage : Stage Float κ σ) id intents,
      stage.motion id intents step.options =
        if 0.0 < step.options.delay then (stage.schedule id intents step.options, none)
        else stage.perform id intents step.options.duration step.options.easing := by
  have hcheck (o : Options Float) := o.decides_check.ok_iff
  have hstandard := usable_standard
  refine ⟨fun o => ⟨(hcheck _).mpr o.usable_repaired, ?_⟩, fun o => ⟨?_, ?_⟩, fun o => ?_,
    fun s hs step hstep stage id intents => ?_⟩
  · exact (repaired_eq_self_iff _).mpr o.usable_repaired
  · rw [hcheck, repaired_eq_self_iff]
  · rw [hcheck, repaired_beq_self_iff]
  · rw [hcheck, hcheck, hcheck, duration_kept_iff, easing_kept_iff, delay_kept_iff]
    -- Only the part that is not a default can be refused.
    exact ⟨⟨fun h => ⟨h, hstandard.delay, hstandard.easing⟩, fun h => h.duration⟩,
      ⟨fun h => ⟨hstandard.duration, hstandard.delay, h⟩, fun h => h.easing⟩,
      ⟨fun h => ⟨hstandard.duration, h, hstandard.easing⟩, fun h => h.delay⟩⟩
  · have husable := (s.decides_check.ok_iff.mp hs).steps step hstep
    exact motion_of_check ((hcheck _).mpr husable.options) stage id intents

/-- The second step of a script is made at once along its own curve. -/
theorem repairs_what_is_refused_specimen :
    Script.specimen.check = .ok () ∧ ∃ step ∈ Script.specimen.steps,
      step.options = ⟨0.2, .bezier ⟨0.1, -0.7, 1.0, 1.3⟩, 0.0⟩ ∧
      ∀ intents, PlainStage.fadingOut.motion 0 intents step.options
        = PlainStage.fadingOut.perform 0 intents 0.2 (.bezier ⟨0.1, -0.7, 1.0, 1.3⟩) := by
  have hcheck : Script.specimen.check = .ok () := rfl
  refine ⟨hcheck, _, List.mem_cons_of_mem _ List.mem_cons_self, rfl, fun intents => ?_⟩
  obtain ⟨-, -, -, hmotion⟩ := repairs_what_is_refused (κ := Empty) (σ := Unit)
  rw [hmotion Script.specimen hcheck _ (List.mem_cons_of_mem _ List.mem_cons_self)]
  exact if_neg (by decide +kernel)

end Options

end LayerAnimation
