import LayerAnimation.Script

/-!
# Numbers of values and scripts

Which numbers a value, an animation or a script is made of, so that a statement can speak of all of
them at once.

- `Value.numbers`, `Track.numbers`, `Intent.numbers`, `Script.numbers` and their like list them.
- `Value.Finite` and `Script.Finite` say that every one of them is finite.
-/

namespace LayerAnimation

variable {α : Type}

/-! ## §1 Values -/

/-- The numbers of a point. -/
def Point.numbers (p : Point α) : List α :=
  [p.x, p.y]

def Color.numbers (c : Color α) : List α :=
  [c.r, c.g, c.b, c.a]

def Transform.numbers (t : Transform α) : List α :=
  t.entries.toList

def PathElement.numbers : PathElement α → List α
  | .moveTo p | .lineTo p => p.numbers
  | .quadTo q p => q.numbers ++ p.numbers
  | .curveTo q r p => q.numbers ++ r.numbers ++ p.numbers
  | .close => []

/-- The numbers of which a value consists. -/
def Value.numbers : Value α → List α
  | .scalar x => [x]
  | .point p => p.numbers
  | .color c => c.numbers
  | .transform t => t.numbers
  | .path p => p.flatMap PathElement.numbers

/-- What holds of all numbers of a point holds of its two coordinates. -/
theorem Point.forall_mem_numbers {b : Point α} {p : α → Prop} :
    (∀ x ∈ b.numbers, p x) ↔ p b.x ∧ p b.y := by
  simp [numbers]

/-- What holds of all numbers of a color holds of its four channels. -/
theorem Color.forall_mem_numbers {c : Color α} {p : α → Prop} :
    (∀ x ∈ c.numbers, p x) ↔ p c.r ∧ p c.g ∧ p c.b ∧ p c.a := by
  simp [numbers]

/-! ## §2 Animations -/

/-- The numbers of a track: those of its start and its goal, and its duration. -/
def Track.numbers (t : Track α) : List α :=
  t.start.elim [] Value.numbers ++ (t.goal.elim [] Value.numbers ++ t.duration.toList)

/-- The numbers of a curve; those of a preset are its own. -/
def Easing.numbers : Easing α → List α
  | .bezier c => [c.x₁, c.y₁, c.x₂, c.y₂]
  | _ => []

theorem Easing.forall_mem_numbers_bezier {c : ControlPoints α} {p : α → Prop} :
    (∀ x ∈ (Easing.bezier c).numbers, p x) ↔ p c.x₁ ∧ p c.y₁ ∧ p c.x₂ ∧ p c.y₂ := by
  simp [numbers]

def Options.numbers (o : Options α) : List α :=
  o.duration :: (o.easing.numbers ++ [o.delay])

/-- The numbers of an intent. -/
def Intent.numbers : Intent α → List α
  | .custom t => t.numbers
  | .backgroundColor c => c.numbers
  | .transform t => t.numbers
  | .translate p | .position p => p.numbers
  | .shadow p => p.flatMap PathElement.numbers
  | .corners x | .rotate x | .rotateX x | .rotateY x | .rotateZ x => [x]
  | .spin x | .spinX x | .spinY x | .spinZ x => [x]
  | .scale x | .scaleX x | .scaleY x | .scaleZ x => [x]
  | .translateX x | .translateY x | .translateZ x | .fade x => [x]

/-- What holds of all numbers of a track holds of its start, its goal and its duration, if
it has them. -/
theorem Track.forall_mem_numbers {t : Track α} {p : α → Prop} :
    (∀ x ∈ t.numbers, p x) ↔ (∀ v ∈ t.start, ∀ x ∈ v.numbers, p x)
      ∧ (∀ v ∈ t.goal, ∀ x ∈ v.numbers, p x) ∧ ∀ d ∈ t.duration, p d := by
  -- A start or a goal that is missing has no numbers.
  have helim (o : Option (Value α)) :
      (∀ x ∈ o.elim [] Value.numbers, p x) ↔ ∀ v ∈ o, ∀ x ∈ v.numbers, p x := by
    cases o <;> simp
  simp only [numbers, List.forall_mem_append, helim, Option.mem_toList, Option.mem_def]

/-- What holds of all numbers of options holds of the two times and of the curve between them. -/
theorem Options.forall_mem_numbers {o : Options α} {p : α → Prop} :
    (∀ x ∈ o.numbers, p x) ↔ p o.duration ∧ (∀ x ∈ o.easing.numbers, p x) ∧ p o.delay := by
  rw [numbers, List.forall_mem_cons, List.forall_mem_append, List.forall_mem_singleton]

/-! ## §3 Scripts -/

def Step.numbers (s : Step α) : List α :=
  s.time :: (s.options.numbers ++ s.intents.flatMap Intent.numbers)

/-- What holds of all numbers of a step holds of its time, its options and its intents. -/
theorem Step.forall_mem_numbers {s : Step α} {p : α → Prop} :
    (∀ x ∈ s.numbers, p x)
      ↔ p s.time ∧ (∀ x ∈ s.options.numbers, p x) ∧ ∀ i ∈ s.intents, ∀ x ∈ i.numbers, p x := by
  simp only [numbers, List.forall_mem_cons, List.forall_mem_append, List.forall_mem_flatMap]

/-- The numbers of the values in a map. -/
def AttributeMap.numbers (m : AttributeMap (Value α)) : List α :=
  m.toList.flatMap fun e => e.2.numbers

/-- What holds of all numbers in a map holds of every value that is found there. -/
theorem AttributeMap.forall_mem_numbers {m : AttributeMap (Value α)} {p : α → Prop} :
    (∀ x ∈ m.numbers, p x) ↔ ∀ a, ∀ v ∈ m.get? a, ∀ x ∈ v.numbers, p x := by
  simp only [numbers, List.forall_mem_flatMap, Prod.forall, mem_toList, Option.mem_def]

/-- All numbers of a script. -/
def Script.numbers (s : Script α) : List α :=
  s.initial.numbers ++ s.steps.flatMap Step.numbers

theorem Script.forall_mem_numbers {s : Script α} {p : α → Prop} :
    (∀ x ∈ s.numbers, p x)
      ↔ (∀ x ∈ s.initial.numbers, p x) ∧ ∀ step ∈ s.steps, ∀ x ∈ step.numbers, p x := by
  simp only [numbers, List.forall_mem_append, List.forall_mem_flatMap]

variable [Scalar α]

/-- Whether all numbers of a value are finite. -/
def Value.Finite (v : Value α) : Prop :=
  ∀ x ∈ v.numbers, Scalar.isFinite x = true

/-- Whether all numbers of a script are finite. -/
def Script.Finite (s : Script α) : Prop :=
  ∀ x ∈ s.numbers, Scalar.isFinite x = true

instance (v : Value α) : Decidable v.Finite :=
  inferInstanceAs (Decidable (∀ x ∈ v.numbers, Scalar.isFinite x = true))

instance (s : Script α) : Decidable s.Finite :=
  inferInstanceAs (Decidable (∀ x ∈ s.numbers, Scalar.isFinite x = true))

end LayerAnimation
