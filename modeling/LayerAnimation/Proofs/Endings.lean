import LayerAnimation.Proofs.Double.Differences
import LayerAnimation.Proofs.Retargeting

/-!
# The end of a track

Two tests say that a track has run its course.  `Playback.isOver` adds the duration to the beginning,
and decides whether the track still contributes.  `Playback.progress` takes the beginning away and
divides by the duration, and decides what the track shows.  Without rounding they are one test.  With
doubles they are not, and a track that is over and holds its last value may show another one.

- `Playback.Elapsed` is what the fraction looks at: whether the duration fits into the time that has
  passed.  It follows from the end test unless the end was rounded down (`Playback.EndsOnTime`).
- `Value.Reached` says that the whole way from one value to another leads to the other.
- `Playback.arrives_iff` says exactly when a track that is over shows its goal, and what it shows
  where it does not.
-/

namespace LayerAnimation

open Double

/-! ## §1 The whole way -/

/-- Whether the way from `a` to `b`, added to `a`, leads to `b`. -/
def Scalar.Reached (a b : Float) : Prop :=
  (a + (b - a) == b) = true

/-- Whether the difference of two finite numbers is a double, so that nothing is rounded. -/
def Double.ExactDifference (a b : Float) : Prop :=
  ∃ q r, placeOf? a = some (Double.point q) ∧ placeOf? b = some (Double.point r) ∧
    placeOf? (b - a) = some (Double.point (r - q))

theorem Scalar.reached_of_exactDifference {a b : Float} (h : ExactDifference a b) : Reached a b := by
  obtain ⟨q, r, ha, hb, hdifference⟩ := h
  have hback : q + (r - q) = r := add_sub_cancel q r
  have hsum := placeOf?_add ha hdifference
  rw [hback, landing_eq_point hb] at hsum
  exact beq_iff.mpr ⟨_, _, hsum, hb, rfl⟩

theorem Double.exactDifference_self {x : Float} (finite : x.isFinite = true) : ExactDifference x x := by
  obtain ⟨q, hq⟩ := exists_point_of_isFinite finite
  exact ⟨q, q, hq, hq, by rw [sub_self, (isZero_sub_self finite).placeOf?]⟩

theorem Scalar.lerp_end (a b : Float) : Scalar.lerp a b 1.0 = a + (b - a) := by
  rw [lerp, times_one]

namespace Value

variable {a b : Value Float}

/-- There is no way between values of different kinds, nor between outlines. -/
def Apart (a b : Value Float) : Prop :=
  a.kind = b.kind → b.kind = .path

/-- Whether the whole way from one value to another leads to the other: in every number if there is
a way, and else if the other is a value that can be told to be itself. -/
def Reached (a b : Value Float) : Prop :=
  (a.Apart b → (b == b) = true) ∧
    (¬ a.Apart b → ∀ w ∈ a.numbers.zip b.numbers, Scalar.Reached w.1 w.2)

theorem lerp_of_apart (apart : a.Apart b) (t : Float) :
    a.lerp b t = if (1.0 : Float) ≤ t then b else a := by
  cases a <;> cases b <;> first | rfl | cases apart rfl

theorem lerp_end_of_apart (apart : a.Apart b) : a.lerp b 1.0 = b := by
  have hone : (1.0 : Float) ≤ 1.0 := by decide +kernel
  rw [lerp_of_apart apart, if_pos hone]

/-- Where there is a way, its end is the other value exactly if every number is reached. -/
theorem lerp_end_beq_iff_of_not_apart (way : ¬ a.Apart b) :
    (a.lerp b 1.0 == b) = true ↔ ∀ w ∈ a.numbers.zip b.numbers, Scalar.Reached w.1 w.2 := by
  obtain ⟨same, numeric⟩ := Classical.not_imp.mp way
  -- Values of two kinds are apart, and so are two outlines.
  cases a <;> cases b <;> try cases same
  case scalar.scalar x y =>
    have hbeq : (Value.scalar (Scalar.lerp x y 1.0) == .scalar y) = (Scalar.lerp x y 1.0 == y) := rfl
    rw [lerp, hbeq, Scalar.lerp_end]
    simp [numbers, Scalar.Reached]
  case point.point p q =>
    rw [lerp, point_beq_point, Point.beq_iff]
    simp [numbers, Point.numbers, Point.lerp, Scalar.lerp_end, Scalar.Reached]
  case color.color c d =>
    rw [lerp, color_beq_color, Color.beq_iff]
    simp [numbers, Color.numbers, Color.lerp, Scalar.lerp_end, Scalar.Reached]
  case transform.transform m n =>
    rw [lerp, transform_beq_transform, Transform.beq_iff]
    simp [numbers, Transform.numbers, Transform.lerp, Scalar.lerp_end, Scalar.Reached,
      List.forall_mem_iff_forall_getElem]
  case path.path => exact absurd rfl numeric

/-- The end of the way from one value to another is the other exactly if the way leads there. -/
theorem lerp_end_beq_iff : (a.lerp b 1.0 == b) = true ↔ a.Reached b := by
  by_cases apart : a.Apart b
  · simp [lerp_end_of_apart apart, Reached, apart]
  · simp [lerp_end_beq_iff_of_not_apart apart, Reached, apart]

/-- A value whose numbers are finite is reached where no difference is rounded. -/
theorem reached_of_exactDifference (finite : b.Finite)
    (exact : ¬ a.Apart b → ∀ w ∈ a.numbers.zip b.numbers, ExactDifference w.1 w.2) : a.Reached b :=
  ⟨fun _ => beq_self finite, fun way w hw => Scalar.reached_of_exactDifference (exact way w hw)⟩

theorem reached_self (finite : a.Finite) : a.Reached a := by
  refine reached_of_exactDifference finite fun _ w hw => ?_
  rw [List.zip, List.zipWith_self] at hw
  obtain ⟨x, hx, rfl⟩ := List.mem_map.mp hw
  exact exactDifference_self (finite x hx)

end Value

/-! ## §2 Fractions of the way -/

/-- A fraction is cut to the unit interval, and reaches its end exactly if it did before. -/
theorem Scalar.exists_placeOf?_clamp {x : Float} {a : Line} (hx : placeOf? x = some a) :
    ∃ c, placeOf? (Scalar.clamp 0.0 1.0 x) = some c ∧ Double.point 0 ≤ c ∧ c ≤ Double.point 1 ∧
      (Double.point 1 ≤ c ↔ Double.point 1 ≤ a) := by
  have hone : placeOf? (1.0 : Float) = some (Double.point 1) := placeOf?_one
  have hunit : Double.point 0 < Double.point 1 := point_lt_point.mpr one_pos
  unfold clamp
  simp only [lt_iff_of_placeOf? hx placeOf?_zero, lt_iff_of_placeOf? hone hx]
  split_ifs with hlow hhigh
  · exact ⟨_, placeOf?_zero, le_refl _, hunit.le,
      iff_of_false (not_le.mpr hunit) (not_le.mpr (hlow.trans hunit))⟩
  · exact ⟨_, hone, hunit.le, le_refl _, iff_of_true (le_refl _) hhigh.le⟩
  · exact ⟨a, hx, not_lt.mp hlow, not_lt.mp hhigh, Iff.rfl⟩

namespace Easing

theorem apply_end (e : Easing Float) : e.apply 1.0 = 1.0 := by
  have hclamp : Scalar.clamp (0.0 : Float) 1.0 1.0 = 1.0 :=
    Double.clamp_of_mem (by decide +kernel) (by decide +kernel)
  have hend : ((1.0 : Float) == 1.0) = true := by decide +kernel
  simp only [apply, hclamp, hend, Bool.or_true, ↓reduceIte]

/-- The straight curve changes nothing. -/
theorem apply_linear {t : Float} (h₀ : (0.0 : Float) ≤ t) (h₁ : t ≤ (1.0 : Float)) :
    (Easing.linear : Easing Float).apply t = t := by
  have hstart : ((0.0 : Float) == 0.0) = true := by decide +kernel
  have hend : ((1.0 : Float) == 1.0) = true := by decide +kernel
  simp only [apply, Double.clamp_of_mem h₀ h₁, controlPoints, hstart, hend, Bool.and_self, ↓reduceIte,
    ite_self]

end Easing

/-! ## §3 The two tests -/

namespace Playback

variable {p : Playback Float} {now : Float}

/-- Whether the duration fits into the time that has passed since the beginning. -/
def Elapsed (p : Playback Float) (now : Float) : Prop :=
  p.duration ≤ 0.0 ∨ p.duration ≤ now - p.begin

/-- Whether the end of a track is not rounded down. -/
def EndsOnTime (p : Playback Float) : Prop :=
  ∃ b d c, placeOf? p.begin = some (Double.point b) ∧ placeOf? p.duration = some (Double.point d) ∧
    placeOf? (p.begin + p.duration) = some c ∧ Double.point (b + d) ≤ c

/-- A track whose end is not rounded down has elapsed when it is over. -/
theorem elapsed_of_endsOnTime (onTime : p.EndsOnTime) (moment : now.isFinite = true)
    (ended : p.isOver now = true) : p.Elapsed now := by
  obtain ⟨b, d, c, hb, hd, hc, hend⟩ := onTime
  obtain ⟨n, hn⟩ := exists_point_of_isFinite moment
  have hreached : b + d ≤ n := by
    have hle : p.begin + p.duration ≤ now := of_decide_eq_true ended
    exact point_le_point.mp (hend.trans ((le_iff_of_placeOf? hc hn).mp hle))
  -- What is left of the exact difference after rounding is no less than a double that it exceeds.
  refine .inr ((le_iff_of_placeOf? hd (placeOf?_sub hn hb)).mpr ?_)
  rw [← landing_eq_point hd]
  exact landing_mono (by linarith)

/-- The elapsed fraction is a number of the unit interval, and reaches its end exactly when the
duration has elapsed. -/
theorem exists_placeOf?_progress (begins : p.begin.isFinite = true)
    (lasts : p.duration.isFinite = true) (moment : now.isFinite = true) :
    ∃ c, placeOf? (p.progress now) = some c ∧ Double.point 0 ≤ c ∧ c ≤ Double.point 1 ∧
      (Double.point 1 ≤ c ↔ p.Elapsed now) := by
  unfold progress Elapsed
  split
  · next hnone =>
    exact ⟨_, placeOf?_one, point_le_point.mpr zero_le_one, le_refl _,
      iff_of_true (le_refl _) (.inl hnone)⟩
  · next hpositive =>
    obtain ⟨d, hd, hduration⟩ := exists_pos_of_finite lasts hpositive
    obtain ⟨b, hb⟩ := exists_point_of_isFinite begins
    obtain ⟨n, hn⟩ := exists_point_of_isFinite moment
    -- The elapsed time is rounded before it is divided; the rounding of the quotient does not carry
    -- it across one.
    have hpassed := placeOf?_sub hn hb
    obtain ⟨f, hfraction, hone⟩ := exists_placeOf?_div hpassed hduration hd
    obtain ⟨c, hc, h₀, h₁, hend⟩ := Scalar.exists_placeOf?_clamp hfraction
    refine ⟨c, hc, h₀, h₁, hend.trans (hone.trans ?_)⟩
    rw [or_iff_right hpositive, le_iff_of_placeOf? hduration hpassed]

/-! ## §4 What is shown after the end -/

/-- The elapsed fraction is one, and what is shown is the goal. -/
def Arrives (p : Playback Float) (now : Float) (goal : Value Float) : Prop :=
  p.progress now = 1.0 ∧ ∃ v, p.value? now = some v ∧ (v == goal) = true

/-- A track that holds its last value always shows something. -/
theorem value?_of_holds {goal : Value Float} (leads : p.track.goal = some goal)
    (holds : p.fill.holdsAfterEnd = true) :
    p.value? now
      = some ((p.track.start.getD goal).lerp goal (p.easing.apply (p.progress now))) := by
  simp only [value?, leads, holds, Bool.not_true, Bool.and_false, Bool.false_eq_true, ↓reduceIte]

theorem progress_eq_one_iff (begins : p.begin.isFinite = true) (lasts : p.duration.isFinite = true)
    (moment : now.isFinite = true) : p.progress now = 1.0 ↔ p.Elapsed now := by
  obtain ⟨c, hc, -, hle, hend⟩ := exists_placeOf?_progress begins lasts moment
  rw [← hend]
  constructor
  · intro hone
    rw [hone] at hc
    exact (Option.some.inj (placeOf?_one.symm.trans hc)).le
  · intro hge
    exact eq_one_of_place (le_antisymm hle hge ▸ hc)

theorem progress_lt_one (begins : p.begin.isFinite = true) (lasts : p.duration.isFinite = true)
    (moment : now.isFinite = true) (h : ¬ p.Elapsed now) :
    (0.0 : Float) ≤ p.progress now ∧ p.progress now < 1.0 := by
  obtain ⟨c, hc, hge, -, hend⟩ := exists_placeOf?_progress begins lasts moment
  exact ⟨(le_iff_of_placeOf? placeOf?_zero hc).mpr hge,
    (lt_iff_of_placeOf? hc placeOf?_one).mpr (not_le.mp (mt hend.mp h))⟩

/-- A track that is over and holds its last value shows its goal exactly if the duration has elapsed
and the way leads to the goal.  The duration has elapsed unless the end was rounded down, and the way
leads to the goal if there is none, or if nothing is rounded on it.  Where the duration has not
elapsed, the fraction is less than one, and along the straight curve what cannot be interpolated is
still at its start. -/
theorem arrives_iff {goal : Value Float} (leads : p.track.goal = some goal)
    (holds : p.fill.holdsAfterEnd = true) (begins : p.begin.isFinite = true)
    (lasts : p.duration.isFinite = true) (moment : now.isFinite = true)
    (ended : p.isOver now = true) :
    (p.Arrives now goal ↔ p.Elapsed now ∧ (p.track.start.getD goal).Reached goal) ∧
    (p.progress now = 1.0 ↔ p.Elapsed now) ∧
    (p.EndsOnTime → p.Elapsed now) ∧
    (goal.Finite → (¬ (p.track.start.getD goal).Apart goal →
        ∀ w ∈ (p.track.start.getD goal).numbers.zip goal.numbers, ExactDifference w.1 w.2) →
      (p.track.start.getD goal).Reached goal) ∧
    (goal.Finite → p.track.start = none → (p.track.start.getD goal).Reached goal) ∧
    (p.Elapsed now → (p.track.start.getD goal).Apart goal → p.value? now = some goal) ∧
    (¬ p.Elapsed now → p.progress now < 1.0 ∧
      (p.easing = .linear → (p.track.start.getD goal).Apart goal →
        p.value? now = some (p.track.start.getD goal))) := by
  have hone := progress_eq_one_iff begins lasts moment
  -- A track that holds its last value shows the way at its eased fraction, also after the end.
  have hshown : p.value? now = some ((p.track.start.getD goal).lerp goal
      (p.easing.apply (p.progress now))) := value?_of_holds leads holds
  have helapsed (h : p.Elapsed now) :
      p.value? now = some ((p.track.start.getD goal).lerp goal 1.0) := by
    rw [hshown, hone.mpr h, Easing.apply_end]
  refine ⟨?_, hone, fun h => elapsed_of_endsOnTime h moment ended, Value.reached_of_exactDifference,
    ?_, ?_, ?_⟩
  · unfold Arrives
    rw [hone]
    refine and_congr_right fun h => ?_
    simp [helapsed h, Value.lerp_end_beq_iff]
  · intro finite unset
    rw [unset]
    exact Value.reached_self finite
  · intro h apart
    rw [helapsed h, Value.lerp_end_of_apart apart]
  · intro h
    obtain ⟨hzero, hless⟩ := progress_lt_one begins lasts moment h
    refine ⟨hless, fun linear apart => ?_⟩
    rw [hshown, linear, Easing.apply_linear hzero (LawfulTime.le_of_lt hless),
      Value.lerp_of_apart apart, if_neg (LawfulTime.lt_iff.mp hless).2]

/-- A layer that fades out for two seconds, and stays invisible. -/
def fading : Playback Float where
  id := 7
  track := ⟨.opacity, some (.scalar 1.0), some (.scalar 0.0), none⟩
  begin := 1.0
  duration := 2.0
  easing := .linear
  fill := .forwards

theorem arrives_iff_fading :
    fading.track.goal = some (.scalar 0.0) ∧ fading.fill.holdsAfterEnd = true ∧
    fading.begin.isFinite = true ∧ fading.duration.isFinite = true ∧
    (10.0 : Float).isFinite = true ∧ fading.isOver 10.0 = true ∧
    fading.Arrives 10.0 (.scalar 0.0) := by
  have hended : fading.isOver 10.0 = true := by decide +kernel
  have helapsed : fading.Elapsed 10.0 := .inr (by decide +kernel)
  have hreached : (Value.scalar (1.0 : Float)).Reached (.scalar 0.0) := by
    refine ⟨fun _ => by decide +kernel, fun _ w hw => ?_⟩
    obtain rfl := List.mem_singleton.mp hw
    show ((1.0 : Float) + (0.0 - 1.0) == 0.0) = true
    decide +kernel
  have hfinite : fading.begin.isFinite = true ∧ fading.duration.isFinite = true ∧
      (10.0 : Float).isFinite = true := by decide +kernel
  obtain ⟨hbegins, hlasts, hmoment⟩ := hfinite
  exact ⟨rfl, rfl, hbegins, hlasts, hmoment, hended,
    (arrives_iff rfl rfl hbegins hlasts hmoment hended).1.mpr ⟨helapsed, hreached⟩⟩

/-- A layer whose shadow takes another outline after a tenth of a second. -/
def reshaping : Playback Float where
  id := 7
  track := ⟨.shadowPath, some (.path [.close]), some (.path []), none⟩
  begin := 0.5
  duration := 0.1
  easing := .linear
  fill := .forwards

/-- The sum 0.5 + 0.1 is rounded down to 0.6, and 0.6 - 0.5 falls short of 0.1: the track is over and
still shows the old outline. -/
theorem not_arrives_reshaping :
    reshaping.fill.holdsAfterEnd = true ∧ reshaping.begin.isFinite = true ∧
    reshaping.duration.isFinite = true ∧ (0.6 : Float).isFinite = true ∧
    reshaping.isOver 0.6 = true ∧ reshaping.progress 0.6 < 1.0 ∧
    reshaping.value? 0.6 = some (.path [.close]) ∧ reshaping.track.goal = some (.path []) ∧
    ¬ reshaping.Arrives 0.6 (.path []) := by
  have hless : reshaping.progress 0.6 < 1.0 := by decide +kernel
  have hshort : ¬ reshaping.Arrives 0.6 (.path []) := by
    rintro ⟨hone, -⟩
    rw [hone] at hless
    exact absurd hless (by decide +kernel)
  exact ⟨rfl, by decide +kernel, by decide +kernel, by decide +kernel, by decide +kernel, hless,
    by rfl, rfl, hshort⟩

/-- A number that is small beside the start is lost in the difference. -/
example : ¬ Scalar.Reached 1e16 1.0 := by
  show ¬ ((1e16 : Float) + (1.0 - 1e16) == 1.0) = true
  decide +kernel

end Playback

end LayerAnimation
