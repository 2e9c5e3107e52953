import LayerAnimation.Layer
import LayerAnimation.Proofs.Easing.Solver
import LayerAnimation.Proofs.Finiteness

/-!
# No overshoot

A timing curve whose ordinates lie between zero and one never leads outside the way it eases.  The
statements are about exact numbers, since rounding may pass an end by a hair.

- `Easing.Moderate` are the curves in question; every preset is one (`Easing.moderate_of_mem`).
- `Easing.Moderate.exists_number_apply`: the eased fraction is a number between zero and one.
- `Value.between_lerp`: at such a fraction of the way every component is between those of the ends.
- `Playback.no_overshoot` is the statement for running tracks.
-/

namespace LayerAnimation

/-! ## §1 Moderate curves -/

/-- A curve that passes the check and whose ordinates lie between zero and one as well. -/
structure Easing.Moderate {α : Type} [Scalar α] (e : Easing α) : Prop where
  checked : e.check = .ok ()
  first : (0.0 : α) ≤ e.controlPoints.y₁ ∧ e.controlPoints.y₁ ≤ (1.0 : α)
  second : (0.0 : α) ≤ e.controlPoints.y₂ ∧ e.controlPoints.y₂ ≤ (1.0 : α)

open Exact

variable {K : Type} [Field K] [LinearOrder K] [IsStrictOrderedRing K]

theorem Scalar.exists_number_clamp {t : Exact K} (h : t ≠ .notANumber) :
    ∃ a, Scalar.clamp 0.0 1.0 t = number a ∧ 0 ≤ a ∧ a ≤ 1 := by
  cases t with
  | number x =>
    simp only [clamp, zero_eq, one_eq, number_lt_number]
    split
    · exact ⟨0, rfl, le_rfl, zero_le_one⟩
    split
    · exact ⟨1, rfl, zero_le_one, le_rfl⟩
    · exact ⟨x, rfl, not_lt.mp ‹_›, not_lt.mp ‹_›⟩
  | infinity =>
    have hlow : ¬ (infinity : Exact K) < number 0 := by simp [lt_iff, place?]
    refine ⟨1, ?_, zero_le_one, le_rfl⟩
    rw [clamp, zero_eq, one_eq, if_neg hlow, if_pos (number_lt_infinity 1)]
  | negativeInfinity =>
    have hlow : (negativeInfinity : Exact K) < number 0 := by simp [lt_iff, place?]
    refine ⟨0, ?_, le_rfl, zero_le_one⟩
    rw [clamp, zero_eq, if_pos hlow]
  | notANumber => exact absurd rfl h

namespace Easing

theorem moderate_of_mem {e : Easing (Exact K)} (h : e ∈ presets) : e.Moderate := by
  have h042 : (0.42 : Exact K) = number 0.42 := rfl
  have h058 : (0.58 : Exact K) = number 0.58 := rfl
  have h025 : (0.25 : Exact K) = number 0.25 := rfl
  have h01 : (0.1 : Exact K) = number 0.1 := rfl
  simp only [presets, List.mem_cons, List.not_mem_nil, or_false] at h
  rcases h with rfl | rfl | rfl | rfl | rfl <;>
    constructor <;> simp [check, controlPoints, isFinite_iff, h042, h058, h025, h01] <;> norm_num

variable {e : Easing (Exact K)}

/-- The eased fraction is between zero and one. -/
theorem Moderate.exists_number_apply (he : e.Moderate) {t : Exact K} (ht : t ≠ .notANumber) :
    ∃ a, e.apply t = number a ∧ 0 ≤ a ∧ a ≤ 1 := by
  obtain ⟨x, hx, h0, h1⟩ := Scalar.exists_number_clamp ht
  simp only [apply, hx]
  split
  · exact ⟨x, rfl, h0, h1⟩
  rename_i hends
  split
  · exact ⟨x, rfl, h0, h1⟩
  -- The curve is solved by its abscissas and read off by its ordinates.
  simp only [zero_eq, one_eq, Bool.or_eq_true, number_beq_number, not_or] at hends
  obtain ⟨hp, hq⟩ := abscissas_of_check he.checked
  obtain ⟨c, hc₁, hc₂⟩ := exists_unitCubic hp hq
  obtain ⟨d, hd₁, hd₂⟩ := exists_unitCubic he.first he.second
  obtain ⟨a, ha, ha0, ha1, -⟩ := solve_number c
    (lt_of_le_of_ne h0 (Ne.symm hends.1)) (lt_of_le_of_ne h1 hends.2)
  rw [hc₁, hc₂, hd₁, hd₂, ha, cubic_number]
  exact ⟨d.height a, rfl, d.height_mem ha0 ha1⟩

end Easing

/-! ## §2 Between two values -/

/-- One of two numbers is no less, and the other no more. -/
def Scalar.Between {α : Type} [Scalar α] (a b x : α) : Prop :=
  (a ≤ x ∧ x ≤ b) ∨ (b ≤ x ∧ x ≤ a)

/-- A value of the same numeric kind as two others, each of whose components lies between theirs. -/
def Value.Between {α : Type} [Scalar α] : Value α → Value α → Value α → Prop
  | .scalar a, .scalar b, .scalar x => Scalar.Between a b x
  | .point p, .point q, .point r => Scalar.Between p.x q.x r.x ∧ Scalar.Between p.y q.y r.y
  | .color c, .color d, .color e =>
    Scalar.Between c.r d.r e.r ∧ Scalar.Between c.g d.g e.g ∧ Scalar.Between c.b d.b e.b ∧
      Scalar.Between c.a d.a e.a
  | .transform m, .transform n, .transform k =>
    ∀ i : Fin 16, Scalar.Between m.entries[i] n.entries[i] k.entries[i]
  | _, _, _ => False

theorem Scalar.between_lerp {a b : Exact K} (ha : Scalar.isFinite a = true)
    (hb : Scalar.isFinite b = true) {t : K} (h0 : 0 ≤ t) (h1 : t ≤ 1) :
    Scalar.Between a b (Scalar.lerp a b (number t)) := by
  obtain ⟨x, rfl⟩ := isFinite_iff.mp ha
  obtain ⟨y, rfl⟩ := isFinite_iff.mp hb
  simp only [Scalar.Between, lerp, number_sub_number, number_mul_number, number_add_number,
    number_le_number]
  rcases le_total x y with hxy | hyx
  · have hway := mul_nonneg (sub_nonneg.mpr hxy) h0
    have hrest := mul_le_mul_of_nonneg_left h1 (sub_nonneg.mpr hxy)
    exact .inl ⟨by linarith, by linarith⟩
  · have hway := mul_nonneg (sub_nonneg.mpr hyx) h0
    have hrest := mul_le_mul_of_nonneg_left h1 (sub_nonneg.mpr hyx)
    exact .inr ⟨by linarith, by linarith⟩

/-- At a fraction of the way between two values of one numeric kind every component is between
theirs. -/
theorem Value.between_lerp {a b : Value (Exact K)} (same : a.kind = b.kind)
    (numeric : b.kind ≠ .path) (ha : a.Finite) (hb : b.Finite) {t : K} (h0 : 0 ≤ t) (h1 : t ≤ 1) :
    Value.Between a b (a.lerp b (number t)) := by
  -- Every numeric kind is interpolated number by number.
  have hway {x y : Exact K} (hx : x ∈ a.numbers) (hy : y ∈ b.numbers) :
      Scalar.Between x y (Scalar.lerp x y (number t)) :=
    Scalar.between_lerp (ha x hx) (hb y hy) h0 h1
  cases a <;> cases b <;> try cases same
  case scalar.scalar =>
    exact hway (.head _) (.head _)
  case point.point =>
    constructor <;> apply hway <;> simp [numbers, Point.numbers]
  case color.color =>
    refine ⟨?_, ?_, ?_, ?_⟩ <;> apply hway <;> simp [numbers, Color.numbers]
  case transform.transform m n =>
    intro i
    have hentry : (m.lerp n (number t)).entries[i]
        = Scalar.lerp m.entries[i] n.entries[i] (number t) :=
      Vector.getElem_zipWith ..
    rw [hentry]
    apply hway <;> simp [numbers, Transform.numbers]
  case path.path =>
    exact absurd rfl numeric

/-! ## §3 Running tracks -/

namespace Playback

variable {p : Playback (Exact K)} {now : Exact K}

/-- The elapsed fraction is a number, also of a track that lasts for ever. -/
theorem progress_ne_notANumber (begins : Scalar.isFinite p.begin = true)
    (finite : Scalar.isFinite now = true) (lasts : p.duration ≠ .notANumber) :
    p.progress now ≠ .notANumber := by
  obtain ⟨b, hb⟩ := isFinite_iff.mp begins
  obtain ⟨n, rfl⟩ := isFinite_iff.mp finite
  unfold progress
  split
  · simp
  rename_i hpositive
  -- An elapsed time is a number, and so is its quotient by a duration without end.
  have hquotient : ∃ x, (number n - p.begin) / p.duration = number x := by
    rw [hb, number_sub_number]
    cases hd : p.duration with
    | number d =>
      rw [hd, zero_eq, number_le_number, not_le] at hpositive
      exact ⟨_, number_div_number _ hpositive.ne'⟩
    | infinity => exact ⟨0, rfl⟩
    | negativeInfinity => exact ⟨0, rfl⟩
    | notANumber => exact absurd hd lasts
  obtain ⟨x, hx⟩ := hquotient
  obtain ⟨a, ha, -, -⟩ := Scalar.exists_number_clamp (t := number x) (by simp)
  rw [hx, ha]
  simp

/-- Every preset is a moderate curve, a moderate curve eases any fraction to one between zero and
one, and a running track with such a curve shows only values whose components lie between those of
its start and its goal. -/
theorem no_overshoot :
    (∀ e ∈ (Easing.presets : List (Easing (Exact K))), e.Moderate) ∧
    (∀ e : Easing (Exact K), e.Moderate → ∀ t, t ≠ .notANumber →
      0.0 ≤ e.apply t ∧ e.apply t ≤ 1.0) ∧
    ∀ (p : Playback (Exact K)) (goal : Value (Exact K)) (now : Exact K) (v : Value (Exact K)),
      p.easing.Moderate → p.track.goal = some goal →
      (p.track.start.getD goal).kind = goal.kind → goal.kind ≠ .path →
      (p.track.start.getD goal).Finite → goal.Finite → Scalar.isFinite p.begin = true →
      p.duration ≠ .notANumber → Scalar.isFinite now = true → p.value? now = some v →
      Value.Between (p.track.start.getD goal) goal v := by
  refine ⟨fun e he => Easing.moderate_of_mem he, fun e he t ht => ?_, ?_⟩
  · obtain ⟨a, ha, h0, h1⟩ := he.exists_number_apply ht
    simp [ha, h0, h1]
  · intro p goal now v he hgoal same numeric hstart hfinite begins lasts finite hshown
    obtain ⟨a, ha, h0, h1⟩ := he.exists_number_apply (progress_ne_notANumber begins finite lasts)
    simp only [value?, hgoal] at hshown
    split at hshown
    · cases hshown
    · rw [← Option.some.inj hshown, ha]
      exact Value.between_lerp same numeric hstart hfinite h0 h1

/-- A layer that fades in slowly at first. -/
def rising : Playback (Exact ℚ) where
  id := 0
  track := ⟨.opacity, some (.scalar 0.0), some (.scalar 1.0), none⟩
  begin := 0.0
  duration := 1.0
  easing := .easeIn
  fill := .forwards

theorem no_overshoot_rising :
    rising.easing.Moderate ∧ Scalar.isFinite rising.begin = true ∧
    Scalar.isFinite (0.5 : Exact ℚ) = true ∧ rising.duration ≠ .notANumber ∧
    ∃ v, rising.value? 0.5 = some v ∧ Value.Between (.scalar 0.0) (.scalar 1.0) v := by
  have hmoderate : rising.easing.Moderate :=
    (no_overshoot (K := ℚ)).1 .easeIn (by simp [Easing.presets])
  have hstart : (Value.scalar (0.0 : Exact ℚ)).Finite := fun x hx => by
    obtain rfl := List.mem_singleton.mp hx
    rfl
  have hgoal : (Value.scalar (1.0 : Exact ℚ)).Finite := fun x hx => by
    obtain rfl := List.mem_singleton.mp hx
    rfl
  have hlasts : rising.duration ≠ .notANumber := by
    simp [rising]
  obtain ⟨v, hshown⟩ : ∃ v, rising.value? 0.5 = some v :=
    Option.isSome_iff_exists.mp (by decide +kernel)
  exact ⟨hmoderate, rfl, rfl, hlasts, v, hshown,
    (no_overshoot (K := ℚ)).2.2 rising (.scalar 1.0) 0.5 v hmoderate rfl rfl (by simp [Value.kind])
      hstart hgoal rfl hlasts rfl hshown⟩

/-- Ordinates beyond one lead beyond the goal. -/
example : (1.0 : Exact ℚ) < (Easing.bezier ⟨0.5, 2.0, 0.5, 2.0⟩).apply 0.5 := by
  decide +kernel

end Playback

end LayerAnimation
