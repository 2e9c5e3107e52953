import LayerAnimation.Proofs.Double.Zeros
import LayerAnimation.Proofs.Format.Lenient
import LayerAnimation.Proofs.Json.Compact
import LayerAnimation.Proofs.Retargeting
import LayerAnimation.Proofs.RoundTrip

/-!
# Edited scripts

The document of a script may be edited before it is read: members that hold their defaults can be
left out and the members of every object can be put in any order.  What is then read is the same
script, in the sense of the program's own comparison.

- `Restored` says which number comes back: the one that was written, or the default that it equals.
  These two differ at most in the sign of a zero.
- `step_of_edited` is where the options of a step, of which any may be left out, are found among its
  other members.
- `Script.parse_edited` is the statement about texts.
-/

namespace LayerAnimation

open Document (ofJson ofMembers ofMembers_eq_map ofMembers_perm)
open Json (Place Edited EditedItems EditedMembers)

/-! ## §1 Comparing scripts -/

section Comparisons

open Double

/-- What may be absent equals itself if it does when it is there. -/
theorem option_beq_self {β : Type} [BEq β] {o : Option β} (h : ∀ b ∈ o, (b == b) = true) :
    (o == o) = true := by
  cases o with
  | none => rfl
  | some b => exact h b rfl

/-- A map whose numbers are finite equals itself. -/
theorem AttributeMap.beq_self {m : AttributeMap (Value Float)}
    (h : ∀ x ∈ m.numbers, x.isFinite = true) : (m == m) = true := by
  have hslots : (m == m) = true ↔ ∀ i (hi : i < 18), (m.slots[i] == m.slots[i]) = true :=
    Vector.isEqv_iff_rel
  refine hslots.mpr fun i hi => option_beq_self fun v hv => Value.beq_self ?_
  have hget : m.get? (.ofIndex ⟨i, hi⟩) = some v := by
    rw [← AttributeMap.slots_eq_get?]
    exact hv
  exact AttributeMap.forall_mem_numbers.mp h _ v hget

theorem Track.beq_self {t : Track Float} (h : ∀ x ∈ t.numbers, x.isFinite = true) :
    (t == t) = true := by
  obtain ⟨hstart, hgoal, hduration⟩ := Track.forall_mem_numbers.mp h
  have hbeq : (t == t) = (t.key == t.key &&
      (t.start == t.start && (t.goal == t.goal && t.duration == t.duration))) := rfl
  simp only [hbeq, Bool.and_eq_true]
  exact ⟨beq_self_eq_true _, option_beq_self fun v hv => Value.beq_self (hstart v hv),
    option_beq_self fun v hv => Value.beq_self (hgoal v hv),
    option_beq_self fun d hd => beq_self_of_isFinite (hduration d hd)⟩

theorem Intent.beq_self {i : Intent Float} (h : ∀ x ∈ i.numbers, x.isFinite = true) :
    (i == i) = true := by
  cases i with
  | custom t => exact Track.beq_self h
  | backgroundColor c => exact Value.beq_self (v := .color c) h
  | transform t => exact Value.beq_self (v := .transform t) h
  | translate q | position q => exact Point.beq_self h
  | shadow q => exact Path.beq_self (List.forall_mem_flatMap.mp h)
  | corners x | rotate x | rotateX x | rotateY x | rotateZ x | spin x | spinX x | spinY x
  | spinZ x | scale x | scaleX x | scaleY x | scaleZ x | translateX x | translateY x
  | translateZ x | fade x => exact beq_self_of_isFinite (h x List.mem_cons_self)

/-- A curve whose numbers are finite equals itself. -/
theorem Easing.beq_self {e : Easing Float} (h : ∀ x ∈ e.numbers, x.isFinite = true) :
    (e == e) = true := by
  cases e with
  | linear | easeIn | easeOut | easeInOut | standard => rfl
  | bezier c =>
    obtain ⟨hx₁, hy₁, hx₂, hy₂⟩ := Easing.forall_mem_numbers_bezier.mp h
    have hbeq : (Easing.bezier c == .bezier c)
        = (c.x₁ == c.x₁ && (c.y₁ == c.y₁ && (c.x₂ == c.x₂ && c.y₂ == c.y₂))) := rfl
    simp only [hbeq, Bool.and_eq_true]
    exact ⟨beq_self_of_isFinite hx₁, beq_self_of_isFinite hy₁, beq_self_of_isFinite hx₂,
      beq_self_of_isFinite hy₂⟩

/-- Lists are equal if their elements are, one by one. -/
theorem list_beq_of_forall₂ {β : Type} [BEq β] {R : β → β → Prop} {bs cs : List β}
    (h : List.Forall₂ R bs cs) (hR : ∀ b ∈ bs, ∀ c, R b c → (c == b) = true) :
    (cs == bs) = true := by
  induction h with
  | nil => rfl
  | cons hb _ ih =>
    obtain ⟨hhead, htail⟩ := List.forall_mem_cons.mp hR
    exact Bool.and_eq_true_iff.mpr ⟨hhead _ hb, ih htail⟩

end Comparisons

/-! ## §2 What comes back -/

namespace Double

variable {default x y : Float}

/-- The number that comes back where `x` was written: that number, or the default that it equals. -/
def Restored (default x y : Float) : Prop :=
  x = y ∨ (x == default) = true ∧ default = y

/-- What comes back stands where the number that was written stands. -/
theorem Restored.placeOf? (h : Restored default x y) : placeOf? y = placeOf? x := by
  obtain rfl | ⟨hbeq, rfl⟩ := h
  · rfl
  · obtain ⟨a, b, ha, hb, rfl⟩ := beq_iff.mp hbeq
    rw [ha, hb]

/-- So it equals that number. -/
theorem Restored.beq (h : Restored default x y) (hx : x.isFinite = true) : (y == x) = true := by
  obtain ⟨q, hq⟩ := exists_point_of_isFinite hx
  exact beq_iff.mpr ⟨_, _, h.placeOf?.trans hq, hq, rfl⟩

/-- It is that number, unless the other zero stands for it. -/
theorem Restored.eq (h : Restored default x y) (hx : (x == default) = true → x = default) :
    y = x := by
  obtain rfl | ⟨hbeq, rfl⟩ := h
  · rfl
  · exact (hx hbeq).symm

end Double

open Double (Restored)

/-- The curve comes back, and so do the numbers. -/
structure Options.Restored (o o' : Options Float) : Prop where
  duration : Double.Restored standardDuration o.duration o'.duration
  easing : o.easing = o'.easing
  delay : Double.Restored standardDelay o.delay o'.delay

structure Step.Restored (s s' : Step Float) : Prop where
  time : Double.Restored 0.0 s.time s'.time
  options : s.options.Restored s'.options
  intents : s.intents = s'.intents

structure Script.Restored (s s' : Script Float) : Prop where
  initial : s.initial = s'.initial
  steps : List.Forall₂ Step.Restored s.steps s'.steps

/-- Options that come back equal those that were written. -/
theorem Options.Restored.beq {o o' : Options Float} (h : o.Restored o')
    (ho : ∀ x ∈ o.numbers, x.isFinite = true) : (o' == o) = true := by
  obtain ⟨hduration, heasing, hdelay⟩ := Options.forall_mem_numbers.mp ho
  have hbeq : (o' == o)
      = (o'.duration == o.duration && (o'.easing == o.easing && o'.delay == o.delay)) := rfl
  simp only [hbeq, Bool.and_eq_true]
  exact ⟨h.duration.beq hduration, h.easing ▸ Easing.beq_self heasing, h.delay.beq hdelay⟩

theorem Step.Restored.beq {s s' : Step Float} (h : s.Restored s')
    (hs : ∀ x ∈ s.numbers, x.isFinite = true) : (s' == s) = true := by
  obtain ⟨htime, hoptions, hintents⟩ := Step.forall_mem_numbers.mp hs
  have hbeq : (s' == s)
      = (s'.time == s.time && (s'.options == s.options && s'.intents == s.intents)) := rfl
  simp only [hbeq, Bool.and_eq_true]
  have hsame : List.Forall₂ Eq s.intents s'.intents := by
    rw [List.forall₂_eq_eq_eq]
    exact h.intents
  exact ⟨h.time.beq htime, h.options.beq hoptions, list_beq_of_forall₂ hsame
    fun i hi _ heq => heq ▸ Intent.beq_self (hintents i hi)⟩

theorem Script.Restored.beq {s s' : Script Float} (h : s.Restored s') (hs : s.Finite) :
    (s' == s) = true := by
  obtain ⟨hinitial, hsteps⟩ := Script.forall_mem_numbers.mp hs
  exact Bool.and_eq_true_iff.mpr ⟨h.initial ▸ AttributeMap.beq_self hinitial,
    list_beq_of_forall₂ h.steps fun step hstep _ h => h.beq (hsteps step hstep)⟩

/-- Whether every number that equals its default is that default, which a negative zero is not. -/
structure Step.Definite (s : Step Float) : Prop where
  time : (s.time == 0.0) = true → s.time = 0.0
  duration : (s.options.duration == Options.standardDuration) = true →
    s.options.duration = Options.standardDuration
  delay : (s.options.delay == Options.standardDelay) = true →
    s.options.delay = Options.standardDelay

/-- What comes back of such a step is the step itself. -/
theorem Step.Restored.eq {s s' : Step Float} (h : s.Restored s') (hs : s.Definite) : s' = s := by
  obtain ⟨time, ⟨duration, easing, delay⟩, intents⟩ := s
  obtain ⟨time', ⟨duration', easing', delay'⟩, intents'⟩ := s'
  obtain ⟨htime, ⟨hduration, rfl, hdelay⟩, rfl⟩ := h
  obtain rfl : time' = time := htime.eq hs.time
  obtain rfl : duration' = duration := hduration.eq hs.duration
  obtain rfl : delay' = delay := hdelay.eq hs.delay
  rfl

theorem Script.Restored.eq {s s' : Script Float} (h : s.Restored s')
    (hs : ∀ step ∈ s.steps, step.Definite) : s' = s := by
  have heq {steps steps' : List (Step Float)} (h : List.Forall₂ Step.Restored steps steps')
      (hs : ∀ step ∈ steps, step.Definite) : steps' = steps := by
    induction h with
    | nil => rfl
    | cons hstep _ ih =>
      obtain ⟨hhead, htail⟩ := List.forall_mem_cons.mp hs
      rw [hstep.eq hhead, ih htail]
  obtain ⟨initial, steps⟩ := s
  obtain ⟨initial', steps'⟩ := s'
  obtain ⟨rfl, hsteps⟩ := h
  exact congrArg (Script.mk initial) (heq hsteps hs)

/-! ## §3 The check -/

section Checks

open Double

variable {default x y : Float}

theorem Double.Restored.isFinite (h : Restored default x y) (hdefault : default.isFinite = true)
    (hx : x.isFinite = true) : y.isFinite = true := by
  obtain rfl | ⟨-, rfl⟩ := h
  · exact hx
  · exact hdefault

theorem Double.Restored.usableDelay_eq (h : Restored default x y)
    (hdefault : default.isFinite = true) (hx : x.isFinite = true) :
    Options.usableDelay y = Options.usableDelay x := by
  have hlt : y < 0.0 ↔ x < 0.0 := by rw [lt_iff, lt_iff, h.placeOf?]
  have hfinite : Scalar.isFinite y = Scalar.isFinite x := (h.isFinite hdefault hx).trans hx.symm
  simp only [Options.usableDelay, hlt, hfinite]

theorem Double.Restored.usableDuration_eq (h : Restored default x y)
    (hdefault : default.isFinite = true) (hx : x.isFinite = true) :
    Options.usableDuration y = Options.usableDuration x := by
  have hle : y ≤ 0.0 ↔ x ≤ 0.0 := by rw [le_iff, le_iff, h.placeOf?]
  have hfinite : Scalar.isFinite y = Scalar.isFinite x := (h.isFinite hdefault hx).trans hx.symm
  simp only [Options.usableDuration, hle, hfinite]

/-- A default in place of a number that equals it is no more refused than that number. -/
theorem Double.Restored.refusal_eq {usable : Float → Bool} {problem : Float → Problem Float}
    (h : Restored default x y) (hdefault : usable default = true) (heq : usable y = usable x)
    {rest rest' : Except (Problem Float) Unit} (hrest : rest' = rest) :
    (if !usable y then .error (problem y) else rest')
      = if !usable x then .error (problem x) else rest := by
  obtain rfl | ⟨-, rfl⟩ := h
  · rw [hrest]
  · rw [← heq, hdefault, hrest]
    rfl

/-- Options that come back pass their check or fail it on the same grounds. -/
theorem Options.Restored.check_eq {o o' : Options Float} (h : o.Restored o')
    (ho : ∀ x ∈ o.numbers, x.isFinite = true) : o'.check = o.check := by
  obtain ⟨hduration, -, hdelay⟩ := Options.forall_mem_numbers.mp ho
  have hfirst := h.duration.usableDuration_eq (by decide +kernel) hduration
  have hsecond := h.delay.usableDelay_eq (by decide +kernel) hdelay
  exact h.duration.refusal_eq (by decide +kernel) hfirst
    (h.delay.refusal_eq (by decide +kernel) hsecond (by rw [h.easing]))

theorem Script.checkSteps_eq {steps steps' : List (Step Float)}
    (h : List.Forall₂ Step.Restored steps steps')
    (hs : ∀ step ∈ steps, ∀ x ∈ step.numbers, x.isFinite = true) (index : ℕ) :
    checkSteps index steps' = checkSteps index steps := by
  induction h generalizing index with
  | nil => rfl
  | cons hstep _ ih =>
    obtain ⟨hhead, htail⟩ := List.forall_mem_cons.mp hs
    obtain ⟨htime, hoptions, -⟩ := Step.forall_mem_numbers.mp hhead
    have husable := hstep.time.usableDelay_eq (by decide +kernel) htime
    rw [checkSteps, checkSteps, checkStep, checkStep, husable, hstep.options.check_eq hoptions,
      ih htail]

theorem Script.isSorted_eq {steps steps' : List (Step Float)}
    (h : List.Forall₂ Step.Restored steps steps') : isSorted steps' = isSorted steps := by
  induction h with
  | nil => rfl
  | cons hfirst hrest ih =>
    cases hrest with
    | nil => rfl
    | cons hsecond hrest =>
      rw [isSorted, isSorted, ih]
      congr 2
      rw [le_iff, le_iff, hfirst.time.placeOf?, hsecond.time.placeOf?]

/-- A script that comes back passes its check if the one that was written does, and is refused on
the same grounds if that one is. -/
theorem Script.Restored.check_eq {s s' : Script Float} (h : s.Restored s') (hs : s.Finite) :
    s'.check = s.check := by
  have hsteps := (Script.forall_mem_numbers.mp hs).2
  rw [Script.check, Script.check, Script.checkSteps_eq h.steps hsteps, Script.isSorted_eq h.steps]

end Checks

namespace Format

open Reader

/-! ## §4 Options and steps -/

/-- A number has no parts that an edit could touch. -/
theorem lenient_number {place : Place} : number.Lenient place fun x => x.isFinite = true := by
  intro x hx j edit
  cases edit
  exact faithful_number.read_write x hx

theorem ne_null_of_edited_number (x : Float) (hx : x.isFinite = true) (j : Json)
    (edit : Edited .other (number.write x) j) : ofJson j ≠ .null := by
  cases edit
  exact ofJson_number_ne_null x hx

/-- A number that may be left out where it equals its default. -/
theorem offer_restored {place : Place} {name : String} {default x : Float} {fs : List Field}
    {members : List (String × Json)} {Q : Values fs → Prop} (hx : x.isFinite = true)
    (holds : place.holdsDefault name (.number x) = (x == default))
    (rest : Values.Offered place fs members Q) :
    Values.Offered place (number.fieldOr name default :: fs) ((name, number.write x) :: members)
      fun (v, vs) => Restored default x v ∧ Q vs :=
  .cons (f := number.fieldOr name default)
    (fun j edit => ⟨x, lenient_number x hx j edit, .inl rfl⟩)
    (fun hdefault => ⟨default, rfl, .inr ⟨holds ▸ hdefault, rfl⟩⟩) rest

/-- Only one curve is written as the default. -/
theorem eq_easeInOut_of_holdsDefault {e : Easing Float}
    (holds : Place.step.holdsDefault "timing" ((easing number).write e) = true) :
    e = .easeInOut := by
  cases e with
  | easeInOut => rfl
  | linear | easeIn | easeOut | standard => exact absurd holds (by decide)
  | bezier c => exact absurd holds Bool.false_ne_true

section Steps

variable {kept : List (String × Json)}

theorem keptOptions_of_edited {o : Options Float} (ho : ∀ x ∈ o.numbers, x.isFinite = true)
    (edits : EditedMembers .step (optionMembers number o) kept) :
    ∃ values, Reader.record (optionFields number (keptEasing number))
      (.object (ofMembers kept) true) = .ok values ∧ o.Restored (optionsOf values) := by
  obtain ⟨hduration, heasing, hdelay⟩ := Options.forall_mem_numbers.mp ho
  have hcurve : (keptEasing number).Lenient (Place.step.member "timing") _ :=
    lenient_number.keptEasing
  have hoffered : Values.Offered .step (optionFields number (keptEasing number))
      (optionMembers number o) _ :=
    offer_restored hduration rfl
      (hcurve.offerOr heasing eq_easeInOut_of_holdsDefault (offer_restored hdelay rfl .nil))
  obtain ⟨values, hread, hvalues⟩ :=
    record_of_editedMembers (by simp [optionFields, Format.fieldOr]) hoffered edits
  refine ⟨values, hread, ?_⟩
  obtain ⟨duration, e, delay, _⟩ := values
  obtain ⟨hd, he, hl, -⟩ := hvalues
  exact ⟨hd, he, hl⟩

/-- Members of options are kept, whichever of them are left. -/
theorem kept_of_edited {o : Options Float} (ho : ∀ x ∈ o.numbers, x.isFinite = true) (room : ℕ)
    (edits : EditedMembers .step (optionMembers number o) kept) :
    ∀ m ∈ kept, (m.1 ≠ "at" ∧ m.1 ≠ "intents") ∧ (ofJson m.2).plain (room + 2) = true := by
  intro m hm
  obtain ⟨j, hj, edit⟩ := edits.exists_of_mem hm
  have hnames : ∀ m ∈ optionMembers number o, m.1 ≠ "at" ∧ m.1 ≠ "intents" := by
    simp [optionMembers]
  exact ⟨hnames (m.1, j) hj, edit.plain (plain_optionMembers ho room (m.1, j) hj)⟩

/-- Wherever reading stands before the options of a step, they are kept and the intents are read. -/
theorem draft_of_editedOptions {s : Step Float} (hs : ∀ x ∈ s.numbers, x.isFinite = true)
    (room : ℕ) {draft : StepDraft Float} (hdraft : draft.intents = none)
    (edits : EditedMembers .step (optionMembers number s.options
      ++ [("intents", (list (intent number)).write s.intents)]) kept) :
    ∃ options, EditedMembers .step (optionMembers number s.options) options ∧
      StepDraft.acceptAll number (room + 2) (ofMembers kept) draft = .ok { draft with
        intents := some s.intents, kept := (ofMembers options).reverse ++ draft.kept } := by
  obtain ⟨-, hoptions, hintents⟩ := Step.forall_mem_numbers.mp hs
  have hlist : (list (intent number)).Lenient .intents fun is =>
      ∀ i ∈ is, ∀ x ∈ i.numbers, x.isFinite = true :=
    Lenient.list (lenient_number.intent ne_null_of_edited_number)
  obtain ⟨options, back, rfl, hfront, hback⟩ := edits.of_append
  cases hback with
  -- The intents have no default, so they cannot be left out.
  | drop holds => exact absurd holds Bool.false_ne_true
  | @keep _ _ _ intents _ _ edit hnil =>
    cases hnil
    have happend : ofMembers (options ++ [("intents", intents)])
        = ofMembers options ++ [(some "intents", ofJson intents)] := by
      simp only [ofMembers_eq_map, List.map_append, List.map_cons, List.map_nil]
    have hkept := kept_of_edited hoptions room hfront
    have hread := hlist s.intents hintents intents edit
    refine ⟨options, hfront, ?_⟩
    rw [happend]
    refine (acceptAll_append_of_kept (fun m hm => (hkept m hm).1) (fun m hm => (hkept m hm).2)
      _ _).trans ?_
    exact bind_eq_ok.mpr ⟨_, StepDraft.accept_eq_ok_iff.mpr (.intents hdraft hread), rfl⟩

/-- What is known of an edited step at its end. -/
theorem draft_of_edited {s : Step Float} (hs : ∀ x ∈ s.numbers, x.isFinite = true) (room : ℕ)
    (edits : EditedMembers .step (("at", number.write s.time) :: (optionMembers number s.options
      ++ [("intents", (list (intent number)).write s.intents)])) kept) :
    ∃ time options, StepDraft.acceptAll number (room + 2) (ofMembers kept) {}
        = .ok ⟨time, some s.intents, (ofMembers options).reverse⟩ ∧
      Restored 0.0 s.time (time.getD 0.0) ∧
      EditedMembers .step (optionMembers number s.options) options := by
  -- The time comes first in a written step; it is still there, or it was zero and has been left
  -- out.
  cases edits with
  | keep edit edits =>
    have hread := lenient_number s.time (Step.forall_mem_numbers.mp hs).1 _ edit
    have htakes : StepDraft.Takes number (room + 2) {} "at" _ { time := some s.time } :=
      .time rfl hread
    obtain ⟨options, hoptions, haccepted⟩ := draft_of_editedOptions hs room
      (show ({ time := some s.time } : StepDraft Float).intents = none from rfl) edits
    exact ⟨some s.time, options, bind_eq_ok.mpr
      ⟨_, StepDraft.accept_eq_ok_iff.mpr htakes, haccepted.trans (by simp)⟩, .inl rfl, hoptions⟩
  | drop holds edits =>
    obtain ⟨options, hoptions, haccepted⟩ := draft_of_editedOptions hs room
      (show ({} : StepDraft Float).intents = none from rfl) edits
    exact ⟨none, options, haccepted.trans (by simp), .inr ⟨holds, rfl⟩, hoptions⟩

/-- However a written step is edited, it comes back. -/
theorem step_of_edited {depth : ℕ} (hdepth : depth + 3 ≤ nestingLimit) {s : Step Float}
    (hs : ∀ x ∈ s.numbers, x.isFinite = true) {j : Json}
    (edit : Edited .step ((step number depth).write s) j) :
    ∃ s', (step number depth).read (ofJson j) = .ok s' ∧ s.Restored s' := by
  -- A curve with control points of its own needs two more levels, edited or not.
  obtain ⟨room, hroom⟩ : ∃ room, nestingLimit - (depth + 1) = room + 2 :=
    ⟨nestingLimit - (depth + 1) - 2, by omega⟩
  cases edit with
  | @object _ _ kept _ edits order =>
    obtain ⟨time, options, haccepted, htime, hoptions⟩ := draft_of_edited hs room edits
    obtain ⟨values, hread, hvalues⟩ :=
      keptOptions_of_edited (Step.forall_mem_numbers.mp hs).2.1 hoptions
    -- It is enough to read the members that are left in the order in which they were written.
    refine ⟨⟨time.getD 0.0, optionsOf values, s.intents⟩, step_perm (ofMembers_perm order) ?_,
      htime, hvalues, rfl⟩
    rw [← hroom] at haccepted
    refine bind_eq_ok.mpr ⟨_, haccepted, bind_eq_ok.mpr ⟨(), rfl, ?_⟩⟩
    simp only [StepDraft.finish, List.reverse_reverse, hread]
    rfl

end Steps

/-! ## §5 Scripts -/

/-- Only the empty map is a default. -/
theorem eq_empty_of_holdsDefault {m : AttributeMap (Value Float)}
    (holds : Place.script.holdsDefault "initial" ((attributeMap (value number)).write m) = true) :
    m = .empty := by
  have hnil : m.toList = [] := by
    cases h : m.toList with
    | nil => rfl
    | cons e entries =>
      simp only [attributeMap, h, List.map_cons] at holds
      contradiction
  refine AttributeMap.ext_get? fun a => ?_
  rw [AttributeMap.get?_empty]
  refine Option.eq_none_iff_forall_not_mem.mpr fun v hv => ?_
  have hmem := AttributeMap.mem_toList.mpr hv
  rw [hnil] at hmem
  contradiction

/-- Only the empty list of steps is a default. -/
theorem eq_nil_of_holdsDefault {steps : List (Step Float)}
    (holds : Place.script.holdsDefault "steps" ((list (step number 2)).write steps) = true) :
    steps = [] := by
  cases steps with
  | nil => rfl
  | cons step steps => contradiction

/-- However each step of a list is edited, the steps come back. -/
theorem steps_of_edited {steps : List (Step Float)}
    (hs : ∀ step ∈ steps, ∀ x ∈ step.numbers, x.isFinite = true) {j : Json}
    (edit : Edited .steps ((list (step number 2)).write steps) j) :
    ∃ steps', (list (step number 2)).read (ofJson j) = .ok steps' ∧
      List.Forall₂ Step.Restored steps steps' := by
  cases edit with
  | array edits =>
    obtain ⟨steps', hitems, hsteps⟩ := items_of_edited
      (fun step hstep j edit => step_of_edited (by decide) (hs step hstep) edit) edits
    exact ⟨steps', bind_eq_ok.mpr ⟨steps', hitems, rfl⟩, hsteps⟩

/-- However a written script is edited, it comes back. -/
theorem script_of_edited {s : Script Float} (hs : s.Finite) {j : Json}
    (edit : Edited .script ((script number).write s) j) :
    ∃ s', (script number).read (ofJson j) = .ok s' ∧ s.Restored s' := by
  obtain ⟨hinitial, hsteps⟩ := Script.forall_mem_numbers.mp hs
  have hnumber : number.Lenient .other _ := lenient_number
  have hmap : (attributeMap (value number)).Lenient (Place.script.member "initial") _ :=
    hnumber.value.attributeMap
  -- Both members of a script have a default, so either may be left out; what is read then are no
  -- values, or no steps.
  have hlast : Values.Offered .script [(list (step number 2)).fieldOr "steps" []]
      [("steps", (list (step number 2)).write s.steps)] _ :=
    .cons (f := (list (step number 2)).fieldOr "steps" [])
      (fun j edit => steps_of_edited hsteps edit)
      (fun holds => ⟨[], rfl, by rw [eq_nil_of_holdsDefault holds]; exact .nil⟩) .nil
  have hoffered : Values.Offered .script [(attributeMap (value number)).fieldOr "initial" .empty,
      (list (step number 2)).fieldOr "steps" []]
      [("initial", (attributeMap (value number)).write s.initial),
        ("steps", (list (step number 2)).write s.steps)] _ :=
    hmap.offerOr (AttributeMap.forall_mem_numbers.mp hinitial) eq_empty_of_holdsDefault hlast
  obtain ⟨⟨initial, steps, _⟩, hread, rfl, hsteps, -⟩ :=
    record_of_edited (by simp [Format.fieldOr]) hoffered edit
  exact ⟨⟨s.initial, steps⟩, map_eq_ok.mpr ⟨_, hread, rfl⟩, rfl, hsteps⟩

end Format

namespace Script

/-- The document of a script with finite numbers may be edited in any way: members that hold their
defaults may be left out and the members of all objects may stand in any order.  Each text of the
edited document, indented or not, is read as the same script, in the sense of the program's own
comparison.  That script passes its check if the one that was written does, and unless that one
holds a negative zero for a default it is the very same. -/
theorem parse_edited {s : Script Float} (hs : s.Finite) {j : Json}
    (edit : Edited .script ((Format.script Format.number).write s) j) :
    ∃ s', (s' == s) = true ∧ s'.check = s.check ∧ ((∀ step ∈ s.steps, step.Definite) → s' = s) ∧
      (Format.script Format.number).parse j.pretty = .ok s' ∧
      (Format.script Format.number).parse j.compact = .ok s' ∧
      ∀ text, Document.read text = (ofJson j, true) →
        (Format.script Format.number).parse text = .ok s' := by
  obtain ⟨s', hread, hrestored⟩ := Format.script_of_edited hs edit
  have htexts : ∀ text, Document.read text = (ofJson j, true) →
      (Format.script Format.number).parse text = .ok s' := by
    intro text htext
    rw [Format.parse, htext]
    exact Reader.bind_eq_ok.mpr ⟨s', hread, rfl⟩
  exact ⟨s', hrestored.beq hs, hrestored.check_eq hs, hrestored.eq,
    htexts _ (Document.read_pretty j), htexts _ (Document.read_compact j), htexts⟩

/-- A script with a step at the negative zero, a duration that is the default and a track without
start and duration. -/
def sketch : Script Float where
  initial := .empty
  steps := [⟨-0.0, ⟨0.15, .linear, 0.25⟩, [.custom (Track.toward .opacity (.scalar 0.5))]⟩]

/-- The document of the sketch without anything that holds a default, and with the other members of
its step and of its track the other way round. -/
def sketchDocument : Json :=
  .object [("steps", .array [.object [
    ("intents", .array [.object [("custom", .object [
      ("to_value", .object [("scalar", .number 0.5)]),
      ("key_path", .text "opacity")])]]),
    ("delay", .number 0.25),
    ("timing", .text "linear")]])]

theorem edited_sketch :
    Edited .script ((Format.script Format.number).write sketch) sketchDocument := by
  have htrack : Edited .track
      ((Format.track Format.number).write (Track.toward .opacity (.scalar 0.5)))
      (.object [("to_value", .object [("scalar", .number 0.5)]), ("key_path", .text "opacity")]) :=
    .object (.keep (.text _) (.drop rfl (.keep (.refl _ _) (.drop rfl .nil)))) (.swap _ _ _)
  have hintents : Edited .intents
      (.array [.object [("custom",
        (Format.track Format.number).write (Track.toward .opacity (.scalar 0.5)))]]) _ :=
    .array (.cons (.object (.keep htrack .nil) (.refl _)) .nil)
  -- The zero of the other sign is still the default.
  have hzero : ((-0.0 : Float) == 0.0) = true := by decide +kernel
  have hmembers : EditedMembers .step
      [("at", .number (-0.0)), ("duration", .number 0.15), ("timing", .text "linear"),
        ("delay", .number 0.25), ("intents", .array [.object [("custom",
          (Format.track Format.number).write (Track.toward .opacity (.scalar 0.5)))]])] _ :=
    .drop hzero (.drop (by decide +kernel)
      (.keep (.text _) (.keep (.number _) (.keep hintents .nil))))
  have hstep := Edited.object hmembers (List.reverse_perm _).symm
  exact .object (.drop rfl (.keep (.array (.cons hstep .nil)) .nil)) (.refl _)

theorem parse_edited_sketch :
    sketch.Finite ∧ Edited .script ((Format.script Format.number).write sketch) sketchDocument ∧
    ∃ s', (s' == sketch) = true ∧ s'.check = sketch.check ∧
      ((∀ step ∈ sketch.steps, step.Definite) → s' = sketch) ∧
      (Format.script Format.number).parse sketchDocument.pretty = .ok s' ∧
      (Format.script Format.number).parse sketchDocument.compact = .ok s' ∧
      ∀ text, Document.read text = (ofJson sketchDocument, true) →
        (Format.script Format.number).parse text = .ok s' := by
  have hfinite : sketch.Finite := by decide +kernel
  exact ⟨hfinite, edited_sketch, parse_edited hfinite edited_sketch⟩

end Script

end LayerAnimation
